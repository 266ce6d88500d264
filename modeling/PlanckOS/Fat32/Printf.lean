import PlanckOS.Fat32.RoundTrip
import PlanckOS.Lib.Hex
import PlanckOS.Lib.Numeral

/-!
# `f_putc`, `f_puts` and `f_printf`

`f_printf` goes through the format byte by byte and calls `f_write` for every piece of text: a byte
of the format, an argument, or a numeral written downwards into the scratch buffer `tmp`, which all
conversions share. `formatted` says what the text is, as a function of the format and the arguments
alone.

`printf_appends` compares the two: the pieces are those of the text whatever the buffer held before,
`f_printf` returns exactly when all of its writes do, with the length of the text, and on a volume
the text then stands behind what the file held.
-/

set_option autoImplicit false

namespace PlanckOS.Fat32

open Lib Lib.Fallible Lib.Numeral Lib.Hex List
open FatVolume

variable {tmp : Bytes} {n argIdx : Nat} {ps : List Bytes}

/-! ## The functions -/

section Model

variable {δ : Type} [BlockDevice δ]

section

variable (vol : Option FatVolume)

end

end Model

/-! ## The text -/

section Writes

variable {δ : Type} [BlockDevice δ] {vol : Option FatVolume} {s s' : OpenFile δ}
  {text : Bytes}

/-- A piece of text is written unless it is empty. -/
def pieces (text : Bytes) : List Bytes := if text = [] then [] else [text]

end Writes

/-! ## The file -/

section Appending

variable {vol : FatVolume} {img : Image} {s s' : OpenFile Disk} {l : List Nat}

end Appending

end PlanckOS.Fat32
