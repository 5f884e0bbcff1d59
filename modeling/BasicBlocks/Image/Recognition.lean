import BasicBlocks.Image.Elf
import BasicBlocks.Image.MachO
import BasicBlocks.Image.Pe

/-!
# Recognition

The format of an image is told by its first bytes. An image that begins like one of a format but
breaks that format's rules is as unrecognised as one that begins like none.
-/

namespace BasicBlocks.Image

open Utf8 (Bytes)

/-- Images shorter than this are not looked at. -/
def leastSize : Nat := 16

/-- A file of several Mach-O images: nothing is said of any of them. -/
def fatHeader : Header := { Header.unrecognised with format := .machO }

def recognise? (image : Bytes) : Option Header :=
  if image.length < leastSize then none
  else
    match image with
    | 0x7f :: 0x45 :: 0x4c :: 0x46 :: _ => Elf.recognise image
    | 0x4d :: 0x5a :: _ => Pe.recognise image
    | 0xca :: 0xfe :: 0xba :: 0xbe :: _ => some fatHeader
    | image => (MachO.layout? image).bind fun l => MachO.recognise l image

end BasicBlocks.Image

/-- The header of an image, whatever its bytes. -/
def BasicBlocks.Header.ofImage (image : Utf8.Bytes) : Header :=
  (Image.recognise? image).getD Header.unrecognised
