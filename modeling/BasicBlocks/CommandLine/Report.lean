import BasicBlocks.Header
import BasicBlocks.Json.ModelForm

/-!
# What commands print
-/

namespace BasicBlocks

/-- A model with the identity of its binary. -/
structure Report where
  binary : String
  sha256 : String
  model : Model

def Report.toJson (r : Report) : Json :=
  .object [("binary", Json.ofText r.binary), ("sha256", Json.ofText r.sha256),
    ("model", r.model.toJson)]

namespace Header

/-- The least width of a section's name. -/
def nameWidth : Nat := 16

def padName (name : String) : String :=
  name ++ String.ofList (List.replicate (nameWidth - name.length) ' ')

def sectionLine (s : Section) : String :=
  "    - " ++ padName s.name ++ " vaddr 0x" ++ Numeral.hexadecimal s.address.toNat ++ " size 0x"
    ++ Numeral.hexadecimal s.size.toNat ++ " offset 0x" ++ Numeral.hexadecimal s.offset.toNat

def summaryLines (h : Header) (path : String) : List String :=
  ["Binary: " ++ path, "  Format: " ++ h.format.label,
    "  Known format: " ++ (if h.isKnown then "true" else "false"),
    "  Subtype: " ++ h.kind.label, "  Address space: " ++ (AddressSpace.ofHeader h).label]
    ++ (if h.sections.isEmpty then ["  Sections: (none)"]
      else "  Sections:" :: h.sections.map sectionLine)

def summary (h : Header) (path : String) : String :=
  String.join ((h.summaryLines path).map (· ++ "\n"))

end Header
end BasicBlocks
