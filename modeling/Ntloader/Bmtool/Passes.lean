import Ntloader.Lznt1.Sizing
import Ntloader.Xca.Sizing

/-!
# The two passes of bmtool

`decompress_bootmgr` calls a decompressor twice: without a buffer, for the length of the output, and
then with a buffer of that length.

* `sizing_predicts_extraction` — the first pass says what the second one does.
-/

namespace Ntloader.Bmtool

open Ntloader.Lib Ntloader.Huffman Ntloader.Lznt1 Ntloader.Xca

/-- What stands in front of the raw symbols does not depend on the alphabet. -/
theorem stackXca_raw_neg (codes : ℤ → ℕ) (a b : HuffmanAlphabet) :
    ∀ i < 0, (stackXca codes a).raw i = (stackXca codes b).raw i := by
  intro i hi
  rw [stackXca_raw_of_neg codes a hi, stackXca_raw_of_neg codes b hi]

/-- **The sizing pass predicts the extraction pass.** Without a buffer and with one, either
decompressor returns the same value; if that is a length, the bytes of the buffer up to it are
written, each once and in increasing order, and nothing else is. Where the reads of the input leave
their bounds, both passes read the same bytes there.
Source: libnt/lznt1.c, lznt1_decompress; libnt/xca.c, xca_decompress; utils/bmtool.c,
decompress_bootmgr -/
theorem sizing_predicts_extraction (data : Mem) (len buf : ℕ) (mem₀ mem : Mem) (codes : ℤ → ℕ)
    (a₀ a : HuffmanAlphabet) :
    ((lznt1Decompress data len none mem₀).map Prod.fst =
        (lznt1Decompress data len (some buf) mem).map Prod.fst ∧
      ∀ (n : ℕ) (t : StreamState), lznt1Decompress data len (some buf) mem = some ((n : ℤ), t) →
        Wrote buf n mem t.mem (lznt1Log data len (some buf) mem)) ∧
    ((xcaDecompress (stackXca codes a₀) data len none mem₀).map Prod.fst =
        (xcaDecompress (stackXca codes a) data len (some buf) mem).map Prod.fst ∧
      ∀ (n : ℕ) (t : XcaState),
        xcaDecompress (stackXca codes a) data len (some buf) mem = some ((n : ℤ), t) →
        Wrote buf n mem t.mem (xcaLog (stackXca codes a) data len (some buf) mem)) := by
  refine ⟨⟨?_, fun n t h => ?_⟩, ?_, fun n t h => ?_⟩
  · exact lznt1Decompress_ret data len none (some buf) mem₀ mem
  · exact lznt1Decompress_wrote h
  · exact xcaDecompress_ret (stackXca_raw_neg codes a₀ a) data len none (some buf) mem₀ mem
  · exact xcaDecompress_wrote h

end Ntloader.Bmtool
