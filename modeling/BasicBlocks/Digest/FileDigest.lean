import BasicBlocks.Digest.Sha256
import BasicBlocks.FileSystem.Access

/-!
# Digests of files
-/

namespace BasicBlocks

/-- Why a file has no digest. -/
structure DigestFault where
  path : String
  cause : IoFault
  deriving DecidableEq, Repr

/-- A directory can be opened but not read. -/
def DigestFault.message (f : DigestFault) : String :=
  let verb := if f.cause = .isADirectory then "read" else "open"
  "Failed to " ++ verb ++ " binary for hashing: " ++ f.path

def FileSystem.digest (fs : FileSystem) (path : String) : Except DigestFault String :=
  match fs.read path with
  | .ok contents => .ok (Sha256.hexDigest contents)
  | .error cause => .error ⟨path, cause⟩

end BasicBlocks
