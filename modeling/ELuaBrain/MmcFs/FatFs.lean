import Mathlib.Data.Nat.Notation
import Mathlib.Logic.Function.Basic

/-!
# FatFs

What is documented of the functions of FatFs that `mmcfs.c` uses. A function can fail for reasons
that are not modelled, such as a card that was removed; it changes nothing then. Nothing is
documented for a file object whose members were written to by others.

## Main definitions

* `FaMode`, `Fil` : the modes of a file object, and a file object.
* `fOpen`, `fWrite`, `fRead`, `fLseek`, `fUnlink` : the functions.
-/

namespace ELuaBrain.MmcFs

/-- `FA_OPEN_EXISTING`, `FA_CREATE_NEW`, `FA_CREATE_ALWAYS` and `FA_OPEN_ALWAYS`. -/
inductive FaOpen where
  | openExisting
  | createNew
  | createAlways
  | openAlways
  deriving DecidableEq

/-- The mode of `f_open`, with `FA_READ` and `FA_WRITE`. -/
structure FaMode where
  how : FaOpen := .openExisting
  read : Bool := false
  write : Bool := false
  deriving DecidableEq

/-- The files of a disk. -/
abbrev Files : Type := List UInt8 → Option (List UInt8)

/-- `FIL`. -/
structure Fil where
  /-- `fs != NULL`. -/
  fs : Bool := false
  path : List UInt8 := []
  mode : FaMode := {}
  fptr : ℕ := 0
  /-- Members were written to. -/
  touched : Bool := false

/-- What a file has in it after it was opened, if it can be. -/
def faOpened (how : FaOpen) : Option (List UInt8) → Option (List UInt8)
  | none => if how = .openExisting then none else some []
  | some c =>
      match how with
      | .createNew => none
      | .createAlways => some []
      | _ => some c

/-- `f_open`. -/
def fOpen (files : Files) (path : List UInt8) (mode : FaMode) (refuses : Bool) :
    Option (Fil × Files) :=
  if refuses then none
  else
    (faOpened mode.how (files path)).map fun c =>
      ({ fs := true, path, mode }, Function.update files path (some c))

/-- `f_write` of which `n` bytes are accepted. -/
def fWrite (files : Files) (fp : Fil) (buff : List UInt8) (n : ℕ) : Option (Fil × Files) :=
  if fp.fs = false ∨ fp.touched then none
  else if fp.mode.write = false then some (fp, files)
  else
    (files fp.path).map fun c =>
      ({ fp with fptr := fp.fptr + (buff.take n).length },
        Function.update files fp.path
          (some (c.take fp.fptr ++ buff.take n ++ c.drop (fp.fptr + (buff.take n).length))))

/-- `f_read`. -/
def fRead (files : Files) (fp : Fil) (btr : ℕ) : Option (Fil × List UInt8) :=
  if fp.fs = false ∨ fp.touched then none
  else if fp.mode.read = false then some (fp, [])
  else
    (files fp.path).map fun c =>
      ({ fp with fptr := fp.fptr + ((c.drop fp.fptr).take btr).length },
        (c.drop fp.fptr).take btr)

/-- `f_lseek`. Behind the end of a file that can be written to, the file is expanded by as many of
the bytes `room` as there is place for. -/
def fLseek (files : Files) (fp : Fil) (ofs : ℕ) (room : List UInt8) : Option (Fil × Files) :=
  if fp.fs = false ∨ fp.touched then none
  else
    (files fp.path).map fun c =>
      if ofs ≤ c.length then ({ fp with fptr := ofs }, files)
      else if fp.mode.write = false then ({ fp with fptr := c.length }, files)
      else
        let c := c ++ room.take (ofs - c.length)
        ({ fp with fptr := c.length }, Function.update files fp.path (some c))

/-- `f_unlink`. -/
def fUnlink (files : Files) (path : List UInt8) (refuses : Bool) : Option Files :=
  if refuses ∨ files path = none then none else some (Function.update files path none)

end ELuaBrain.MmcFs
