import Ntloader.Lib.Replace

/-!
# Suffixes of file names

After the elements are patched, the suffix of every file name in the BCD image is made the one of the
firmware: `.efi` on UEFI and `.exe` on BIOS.

* `bcdReplaceSuffix` — libnt/bcd.c, bcd_replace_suffix.
* `patchSuffix` — the end of bcd_patch_data.
* `Rewritten` — every suffix is replaced, and nothing else is changed.
* `patchSuffix_iff` — so it is exactly if the image does not end with the suffix.

Scope: the length has 32 bits, and an image does not fill the address space of a 32-bit build, so that
no offset wraps.
-/

namespace Ntloader.Bcd

open Ntloader.Lib

/-- The bytes of `L".exe"`, with its zero. -/
def suffixExe : List UInt8 := [0x2e, 0, 0x65, 0, 0x78, 0, 0x65, 0, 0, 0]

/-- The bytes of `L".efi"`, with its zero. -/
def suffixEfi : List UInt8 := [0x2e, 0, 0x65, 0, 0x66, 0, 0x69, 0, 0, 0]

/-- The length of a suffix.
Source: libnt/bcd.c, bcd_replace_suffix, `sizeof(wchar_t) * 5` -/
def suffixLen : ℕ := 2 * 5

/-- Replace a suffix in the image of `length` bytes at `p`. The loop goes on while
`ofs + len < length`.
Source: libnt/bcd.c, bcd_replace_suffix -/
def bcdReplaceSuffix (src dst : List UInt8) (m : Mem) (p length : ℕ) : Mem :=
  (List.range (length - suffixLen)).foldl
    (fun m ofs => if m.bytes (p + ofs) suffixLen = src then m.store (p + ofs) dst else m) m

/-- The suffix that is replaced, and the one that replaces it.
Source: libnt/bcd.c, bcd_patch_data, `if (efi_systab)` -/
def suffixes (efi : Bool) : List UInt8 × List UInt8 :=
  if efi then (suffixExe, suffixEfi) else (suffixEfi, suffixExe)

/-- Source: libnt/bcd.c, bcd_patch_data, the last call -/
def patchSuffix (efi : Bool) (m : Mem) (p length : ℕ) : Mem :=
  bcdReplaceSuffix (suffixes efi).1 (suffixes efi).2 m p length

/-- No suffix is left in the image, each place of one holds the other, and every other byte is
unchanged. -/
structure Rewritten (src dst : List UInt8) (p length : ℕ) (m m' : Mem) : Prop where
  complete : ∀ o, o + suffixLen ≤ length → m'.bytes (p + o) suffixLen ≠ src
  places : ∀ o, o + suffixLen ≤ length → m.bytes (p + o) suffixLen = src →
    m'.bytes (p + o) suffixLen = dst
  frame : ∀ x, (∀ o, o + suffixLen ≤ length → m.bytes (p + o) suffixLen = src →
    x < p + o ∨ p + o + suffixLen ≤ x) → m' x = m x

/-- Both suffixes have the same length. -/
theorem suffixes_length (efi : Bool) : (suffixes efi).1.length = suffixLen := by
  cases efi <;> rfl

/-- The dot stands at the start of a suffix only. -/
theorem separable_suffixes (efi : Bool) : Separable (suffixes efi).1 (suffixes efi).2 := by
  cases efi <;>
    exact ⟨by decide, by decide, by decide, by decide, by decide, by decide⟩

/-- The loop over the image is a scan for the suffix. -/
theorem patchSuffix_eq (efi : Bool) (m : Mem) (p length : ℕ) :
    patchSuffix efi m p length =
      replaceScan (suffixes efi).1 (suffixes efi).2 m p (length - suffixLen) := by
  rw [patchSuffix, bcdReplaceSuffix, replaceScan, ← suffixes_length efi]
  rfl

/-- **The rewriting of suffixes is complete and minimal** exactly if the image does not end with the
suffix. -/
theorem patchSuffix_iff (efi : Bool) (m : Mem) (p length : ℕ) :
    Rewritten (suffixes efi).1 (suffixes efi).2 p length m (patchSuffix efi m p length) ↔
      (suffixLen ≤ length → m.bytes (p + (length - suffixLen)) suffixLen ≠ (suffixes efi).1) := by
  have hsep := separable_suffixes efi
  have hspec := replaceScan_spec hsep m p (length - suffixLen)
  rw [← patchSuffix_eq] at hspec
  have hholds := fun q hq => hspec.holds_iff hsep (q := q) hq
  have hnot := fun o ho => hspec.not_holds hsep (o := o) ho
  have hplaces := hspec.places
  have hframe := hspec.frame
  rw [suffixes_length] at hholds hnot hplaces hframe
  constructor
  · intro hrewritten hle hlast
    refine hrewritten.complete (length - suffixLen) (by omega) ?_
    exact (hholds _ le_rfl).mpr hlast
  · intro hlast
    -- the last place, which is not scanned, holds no suffix
    have hscanned : ∀ o, o + suffixLen ≤ length → m.bytes (p + o) suffixLen = (suffixes efi).1 →
        o < length - suffixLen := by
      intro o ho hocc
      by_contra hge
      have heq : o = length - suffixLen := by omega
      exact hlast (by omega) (heq ▸ hocc)
    refine ⟨fun o ho hnew => ?_, fun o ho hocc => ?_, fun x hx => ?_⟩
    · by_cases hlt : o < length - suffixLen
      · exact hnot o hlt hnew
      · exact hlt (hscanned o ho ((hholds o (by omega)).mp hnew))
    · exact hplaces o (hscanned o ho hocc) hocc
    · exact hframe x fun o ho hocc => hx o (by omega) hocc

/-- An image that is a suffix is left as it is. -/
theorem not_rewritten_suffix :
    ¬∀ (efi : Bool) (m : Mem) (p length : ℕ),
      Rewritten (suffixes efi).1 (suffixes efi).2 p length m (patchSuffix efi m p length) := by
  intro h
  exact (h true (Mem.ofList suffixExe) 0 suffixLen).complete 0 (by decide) (by decide +kernel)

end Ntloader.Bcd
