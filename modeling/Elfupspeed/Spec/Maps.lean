import Elfupspeed.Lib.Lines
import Elfupspeed.Src.Elfinject

/-!
# The maps files

`/proc/pid/maps` has a line for each mapping of a process, in the order of the
addresses. A module is loaded where its first mapping starts.

The injector takes for that what the first line gives that has the name in it.
It sees 1023 bytes of a line at a time, and where the name is not in the first
of these pieces it takes the piece that has it for a line, and what is at its
front for an address.
-/

namespace Elfupspeed.Elfinject

open Elfupspeed.Lib Elfupspeed.Lib.CString

/-- A mapping as its line shows it. `fields` are the permissions, the offset,
the device and the inode, with the blanks up to the path. -/
structure Mapping where
  start : Word
  stop : Word
  fields : List Byte
  path : List Byte
  text : ∀ b ∈ fields ++ path, b ≠ byte '\n' ∧ b ≠ 0

def Mapping.line (m : Mapping) : List Byte :=
  hexDigits 8 m.start.toNat ++ byte '-' ::
    (hexDigits 8 m.stop.toNat ++ byte ' ' :: (m.fields ++ m.path)) ++ [byte '\n']

def mapsFile (ms : List Mapping) : List Byte := (ms.map Mapping.line).flatten

def loadAddress (ms : List Mapping) (moduleName : List Byte) : Option Word :=
  (ms.find? fun m => m.path = moduleName).map Mapping.start

/-- The first mapping that has the name anywhere in its line. -/
def firstNaming (ms : List Mapping) (moduleName : List Byte) : Option Mapping :=
  ms.find? fun m => moduleName <:+: m.line

/-- The number at the front of a piece, up to its first dash. -/
def frontNumber (piece : List Byte) : Word :=
  ((strtok piece (byte '-')).map strtoul16).getD 0

/-- What the line of a mapping gives for a name: the start of the mapping, or
what is at the front of a later piece. -/
def Mapping.given (m : Mapping) (moduleName : List Byte) : Option Word :=
  if moduleName <:+: m.line.take 1023 then some m.start
  else
    ((fgetsAll 1024 1023 (m.line.drop 1023)).find? fun piece =>
      moduleName <:+: piece).map frontNumber

/-- What is reported for an address: 0x8000 counts as none. -/
def reported (addr : Word) : Word := if addr = 0x8000 then 0 else addr

/-- The address that is taken for a module, with 0 for none. -/
def taken (maps : Option (List Mapping)) (moduleName : List Byte) : Word :=
  reported
    ((maps.bind fun ms => ms.findSome? fun m => m.given moduleName).getD 0)

end Elfupspeed.Elfinject
