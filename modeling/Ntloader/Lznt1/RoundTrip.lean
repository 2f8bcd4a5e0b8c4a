import Mathlib.Data.Nat.Bitwise
import Ntloader.Lznt1.Decompress
import Ntloader.Lznt1.Encoding

/-!
# LZNT1 decompression undoes LZNT1 encoding

* `Produced` — the invariant of `lznt1_block`: the output written so far is stored at the block's
  address, and the split is the one in force behind it.
* `decodeValue_spec` — one value; `blockBody_tokens` — the values behind one tag;
  `blockLoop_groups` — a whole block.
* `streamLoop_chunks`, `lznt1Decompress_encodeStream` — the stream.
-/

namespace Ntloader.Lznt1

open Ntloader.Lib

/-! ## The split -/

/-- The loop that updates the split stops at the split in force, which is not below one. -/
theorem updateSplit_eq {outLen : ℕ} (hout : outLen ≤ 2 ^ 15) (fuel j : ℕ) (h4 : 4 ≤ j)
    (hj : j ≤ offsetBitsAt outLen) (hfuel : offsetBitsAt outLen - j < fuel) :
    updateSplit outLen fuel (16 - j) (2 ^ j) = (splitAt outLen, 2 ^ offsetBitsAt outLen) := by
  have h15 : offsetBitsAt outLen ≤ 15 := max_le (by norm_num) (Nat.clog_le_of_le_pow hout)
  induction fuel generalizing j with
  | zero => omega
  | succ fuel ih =>
      rw [updateSplit]
      by_cases hlt : 2 ^ j < outLen
      · -- more bytes than `j` offset bits reach: the next threshold is still in force
        have hclog : j < Nat.clog 2 outLen := (Nat.lt_clog_iff_pow_lt (by omega)).mpr hlt
        have hj' : j + 1 ≤ offsetBitsAt outLen := le_trans hclog (le_max_right _ _)
        have hdec : (16 - j + (2 ^ 32 - 1)) % 2 ^ 32 = 16 - (j + 1) := by omega
        have hpow : 2 ^ (j + 1) ≤ 2 ^ 15 := Nat.pow_le_pow_right (by omega) (by omega)
        have hdouble : (2 ^ j) <<< 1 % 2 ^ 32 = 2 ^ (j + 1) := by
          rw [Nat.shiftLeft_eq, ← pow_add, Nat.mod_eq_of_lt (by omega)]
        rw [if_pos hlt, hdec, hdouble]
        exact ih (j + 1) (by omega) hj' (by omega)
      · have hclog : Nat.clog 2 outLen ≤ j := Nat.clog_le_of_le_pow (by omega)
        have heq : offsetBitsAt outLen = j := le_antisymm (max_le h4 hclog) hj
        rw [if_neg hlt, splitAt, heq]

/-! ## One value -/

/-- The invariant of `lznt1_block`, for a block whose output goes to `a`. -/
structure Produced (a : ℕ) (m : Mem) (out : List UInt8) (s : BlockState) : Prop where
  /-- The next byte goes behind the output. -/
  dest : s.dest = some (a + out.length)
  /-- The output is stored, and nothing else was written. -/
  mem : s.mem = m.store a out
  /-- The output length. -/
  outLen : s.outLen = out.length
  /-- The split in force. -/
  split : s.split = splitAt out.length
  /-- Where it changes. -/
  nextThreshold : s.nextThreshold = 2 ^ offsetBitsAt out.length

/-- The two fields of a compressed value are read back from its bytes. -/
theorem lznt1Value_eq {data : Mem} {p dist len off : ℕ} (hp : p ≤ 4096)
    (hfit : TokenFits p (.backref dist len))
    (hdata : data.bytes off (tokenBytes p (.backref dist len)).length =
      tokenBytes p (.backref dist len)) :
    lznt1ValueLen (data.word off 2) (splitAt p) = len ∧
      lznt1ValueOffset (data.word off 2) (splitAt p) = dist := by
  obtain ⟨h1, -, hdist, h3, hlen⟩ := hfit
  have hsum : splitAt p + offsetBitsAt p = 16 := by
    have := offsetBitsAt_le hp
    rw [splitAt]
    omega
  have hlt : (dist - 1) * 2 ^ splitAt p + (len - 3) < 256 ^ 2 := by
    have hpow : 2 ^ offsetBitsAt p * 2 ^ splitAt p = 256 ^ 2 := by
      rw [← pow_add, add_comm, hsum]
      rfl
    have hmul := Nat.mul_le_mul_right (2 ^ splitAt p) (Nat.succ_le_of_lt hdist)
    rw [Nat.succ_mul, hpow] at hmul
    omega
  have hword : data.word off 2 = (dist - 1) * 2 ^ splitAt p + (len - 3) := by
    rw [tokenBytes, leBytes_length] at hdata
    rw [Mem.word, hdata, leNat_leBytes_of_lt hlt]
  rw [hword, lznt1ValueLen, lznt1ValueOffset, Nat.one_shiftLeft, Nat.and_two_pow_sub_one_eq_mod,
    Nat.shiftRight_eq_div_pow]
  constructor
  · rw [Nat.add_comm _ (len - 3), Nat.add_mul_mod_self_right, Nat.mod_eq_of_lt hlen]
    omega
  · rw [Nat.add_comm _ (len - 3), Nat.add_mul_div_right _ _ (Nat.two_pow_pos _),
      Nat.div_eq_of_lt hlen]
    omega

/-- Moving on keeps the invariant: the split is brought up to date. -/
theorem Produced.nextValue {a : ℕ} {m : Mem} {out : List UInt8} {s : BlockState} {p : ℕ}
    (hdest : s.dest = some (a + out.length)) (hmem : s.mem = m.store a out)
    (hout : s.outLen = out.length) (hsplit : s.split = splitAt p)
    (hthr : s.nextThreshold = 2 ^ offsetBitsAt p) (hp : p ≤ out.length)
    (hle : out.length ≤ 4096) : Produced a m out (nextValue s) := by
  have hbits := offsetBitsAt_le hle
  have h4 : 4 ≤ offsetBitsAt p := le_max_left _ _
  have hle15 : out.length ≤ 2 ^ 15 := hle.trans (by norm_num)
  have hupd := updateSplit_eq hle15 32 (offsetBitsAt p) h4 (offsetBitsAt_mono hp) (by omega)
  refine ⟨hdest, hmem, hout, ?_, ?_⟩
  · simp only [Lznt1.nextValue]
    rw [hsplit, hthr, hout, splitAt, hupd]
  · simp only [Lznt1.nextValue]
    rw [hsplit, hthr, hout, splitAt, hupd]

/-- **One value.** Behind the output `out`, the bytes of a token that fits there are decoded to the
output continued by that token. -/
theorem decodeValue_spec {data : Mem} {a limit : ℕ} {m : Mem} {out : List UInt8} {s : BlockState}
    (hs : Produced a m out s) {t : Token} (hfit : TokenFits out.length t)
    (htag : s.tag.testBit 0 = isBackref t)
    (hdata : data.bytes s.offset (tokenBytes out.length t).length = tokenBytes out.length t)
    (hlimit : s.offset + (tokenBytes out.length t).length ≤ limit)
    (hle : out.length + t.size ≤ 4096) :
    ∃ u, decodeValue data limit s = some u ∧ Produced a m (expand out t) (nextValue u) ∧
      u.offset = s.offset + (tokenBytes out.length t).length ∧ u.tag = s.tag ∧
      u.tagBit = s.tagBit := by
  rw [Nat.testBit_zero] at htag
  rw [decodeValue, Nat.and_one_is_mod]
  cases t with
  | lit b =>
      have htag0 : ¬ s.tag % 2 ≠ 0 := by
        simp only [isBackref, decide_eq_false_iff_not] at htag
        omega
      have hb : data s.offset = b := by
        simpa [tokenBytes, Mem.bytes] using hdata
      rw [if_neg htag0]
      refine ⟨_, rfl, ?_, rfl, rfl, rfl⟩
      apply Produced.nextValue (p := out.length)
      · simp [literalValue, hs.dest, expand, Nat.add_assoc]
      · simp only [literalValue, hs.dest, hs.mem, hb, expand]
        exact update_store_append m a out b
      · simp [literalValue, hs.outLen, expand]
      · simp only [literalValue, hs.split]
      · simp only [literalValue, hs.nextThreshold]
      · simp [expand]
      · rw [expand_length]
        exact hle
  | backref dist len =>
      have htag1 : s.tag % 2 ≠ 0 := by
        simp only [isBackref, decide_eq_true_eq] at htag
        omega
      have hbytes : (tokenBytes out.length (.backref dist len)).length = 2 := by simp [tokenBytes]
      obtain ⟨hvlen, hvdist⟩ := lznt1Value_eq (by omega) hfit hdata
      obtain ⟨h1, hdist, -⟩ := hfit
      rw [if_pos htag1, copyValue, if_neg (by omega)]
      simp only [hs.split, hvlen, hvdist, hbytes]
      refine ⟨_, rfl, ?_, rfl, rfl, rfl⟩
      apply Produced.nextValue (p := out.length)
      · simp [hs.dest, expand, Nat.add_assoc]
      · simp only [hs.dest, hs.mem, expand]
        exact copyLoop_store m a len out h1 hdist
      · simp [hs.outLen, expand]
      · rfl
      · exact hs.nextThreshold
      · simp [expand]
      · rw [expand_length]
        exact hle

/-! ## One block -/

/-- What a round of the block loop does past the tag. -/
def blockBody (data : Mem) (limit fuel : ℕ) (t : BlockState) : Option (ℤ × BlockState) :=
  match decodeValue data limit t with
  | none => some (-1, t)
  | some u => blockLoop data limit fuel (nextValue u)

/-- A round within a tag, -/
theorem blockLoop_of_tagBit_ne {data : Mem} {limit fuel : ℕ} {s : BlockState}
    (hlt : s.offset < limit) (h : s.tagBit ≠ 0) :
    blockLoop data limit (fuel + 1) s = blockBody data limit fuel s := by
  have hextract : extractTag data s = s := if_neg h
  rw [blockLoop, if_neg (by omega)]
  simp only [h, false_and, if_false, hextract]
  rfl

/-- and one that starts with a tag. -/
theorem blockLoop_of_tagBit_eq {data : Mem} {limit fuel : ℕ} {s : BlockState}
    (hlt : s.offset + 1 < limit) (h : s.tagBit = 0) :
    blockLoop data limit (fuel + 1) s = blockBody data limit fuel (extractTag data s) := by
  have hoffset : (extractTag data s).offset = s.offset + 1 := by simp [extractTag, h]
  have hne : ¬ (s.tagBit = 0 ∧ (extractTag data s).offset = limit) := by omega
  rw [blockLoop, if_neg (by omega)]
  simp only [hne, if_false]
  rfl

/-- The values behind one tag, up to and including the last. -/
theorem blockBody_tokens {data : Mem} {a limit : ℕ} {m : Mem} (toks : List Token) {out : List UInt8}
    {t : BlockState} (fuel : ℕ) (hne : toks ≠ []) (ht : Produced a m out t)
    (hfit : TokensFit out.length toks) (hbits : t.tagBit + toks.length ≤ 8)
    (htag : ∀ i (h : i < toks.length), t.tag.testBit i = isBackref toks[i])
    (hdata : data.bytes t.offset (encodeTokens out.length toks).length =
      encodeTokens out.length toks)
    (hlimit : t.offset + (encodeTokens out.length toks).length ≤ limit)
    (hle : out.length + sizeSum toks ≤ 4096) :
    ∃ s, blockBody data limit (fuel + (toks.length - 1)) t = blockLoop data limit fuel s ∧
      Produced a m (expandFrom out toks) s ∧
      s.offset = t.offset + (encodeTokens out.length toks).length ∧
      s.tagBit = (t.tagBit + toks.length) % 8 := by
  induction toks generalizing out t with
  | nil => exact absurd rfl hne
  | cons tok toks ih =>
      simp only [encodeTokens] at hdata hlimit
      obtain ⟨hdata₁, hdata₂⟩ := Mem.bytes_append_iff.mp hdata
      rw [List.length_append] at hlimit
      rw [sizeSum_cons] at hle
      obtain ⟨u, hu, hprod, hoff, hutag, hubit⟩ := @decodeValue_spec _ _ limit _ _ _ ht _ hfit.1
          (htag 0 (by simp)) hdata₁ (by omega) (by omega : out.length + tok.size ≤ 4096)
      have hbody : ∀ n, blockBody data limit n t = blockLoop data limit n (nextValue u) := by
        intro n
        rw [blockBody, hu]
      rw [hbody]
      rcases eq_or_ne toks [] with rfl | hrest
      · refine ⟨nextValue u, rfl, hprod, ?_, ?_⟩
        · simp [hoff, encodeTokens]
        · simp [nextValue, hubit]
      · -- the tag has a bit left for the next token, so no tag byte is read
        have hlen : 0 < toks.length := List.length_pos_iff.mpr hrest
        rw [List.length_cons] at hbits
        have hbit : (nextValue u).tagBit = t.tagBit + 1 := by
          simp only [nextValue, hubit]
          omega
        have hge := encodeTokens_length_ge (out.length + tok.size) toks
        have hfuel : fuel + ((tok :: toks).length - 1) = fuel + (toks.length - 1) + 1 := by
          rw [List.length_cons]
          omega
        rw [hfuel, blockLoop_of_tagBit_ne (by rw [nextValue_offset]; omega) (by omega)]
        obtain ⟨s, hs, hsprod, hsoff, hsbit⟩ := ih hrest hprod
          (by rw [expand_length]; exact hfit.2) (by omega)
          (by
            intro i hi
            simp only [nextValue, hutag]
            rw [Nat.testBit_shiftRight, Nat.add_comm]
            exact htag (i + 1) (by simpa using hi))
          (by rw [expand_length, nextValue_offset, hoff]; exact hdata₂)
          (by rw [expand_length, nextValue_offset]; omega)
          (by rw [expand_length]; omega)
        refine ⟨s, hs, hsprod, ?_, ?_⟩
        · rw [hsoff, expand_length, nextValue_offset, hoff]
          simp only [encodeTokens, List.length_append]
          omega
        · rw [hsbit, hbit, List.length_cons]
          congr 1
          omega

/-- **One block.** From the first tag on, the block loop returns the output length once the whole
token sequence is written. -/
theorem blockLoop_groups {data : Mem} {a limit : ℕ} {m : Mem} (groups : List Group)
    {out : List UInt8} {s : BlockState} (fuel : ℕ) (hs : Produced a m out s)
    (htagged : Tagged groups) (hbit : groups ≠ [] → s.tagBit = 0)
    (hfit : TokensFit out.length (groupTokens groups))
    (hdata : data.bytes s.offset (encodeGroups out.length groups).length =
      encodeGroups out.length groups)
    (hlimit : s.offset + (encodeGroups out.length groups).length = limit)
    (hle : out.length + sizeSum (groupTokens groups) ≤ 4096) :
    ∃ u, blockLoop data limit (fuel + (groupTokens groups).length + 1) s =
        some (((expandFrom out (groupTokens groups)).length : ℤ), u) ∧
      u.mem = m.store a (expandFrom out (groupTokens groups)) := by
  induction groups generalizing out s with
  | nil =>
      have hend : s.offset = limit := by simpa [encodeGroups] using hlimit
      refine ⟨s, ?_, hs.mem⟩
      rw [blockLoop, if_pos hend, hs.outLen]
      rfl
  | cons g groups ih =>
      have hbit0 := hbit (List.cons_ne_nil _ _)
      simp only [encodeGroups] at hdata hlimit
      have htagByte : data s.offset = g.tag := by
        have hhead := congrArg (fun l => l.getD 0 0) hdata
        rw [List.length_cons, Mem.bytes_succ] at hhead
        simpa using hhead
      have hextract : extractTag data s = { s with
          tag := g.tag.toNat
          offset := s.offset + 1
          trace := .read s.offset 1 :: s.trace } := by
        rw [extractTag, if_pos hbit0, htagByte]
      rw [List.length_cons, Mem.bytes_succ, htagByte] at hdata
      obtain ⟨hdata₁, hdata₂⟩ := Mem.bytes_append_iff.mp (List.cons.inj hdata).2
      rw [List.length_cons, List.length_append] at hlimit
      rw [groupTokens_cons, TokensFit, allAt_append] at hfit
      rw [groupTokens_cons, sizeSum_append] at hle
      rcases Nat.eq_zero_or_pos g.toks.length with hempty | hpos
      · -- a tag without a token is the last one, and the block ends right behind it
        have hnil : g.toks = [] := List.length_eq_zero_iff.mp hempty
        have hlast : groups = [] := by
          by_contra hne
          have := htagged.head hne
          omega
        subst hlast
        rw [hnil] at hlimit
        have hend : s.offset + 1 = limit := by simpa [encodeTokens, encodeGroups] using hlimit
        refine ⟨extractTag data s, ?_, ?_⟩
        · rw [blockLoop, if_neg (by omega)]
          simp only [hextract, hbit0, hend, and_self, if_true, hs.outLen, groupTokens_cons, hnil]
          rfl
        · rw [hextract, groupTokens_cons, hnil]
          exact hs.mem
      · have hge := encodeTokens_length_ge out.length g.toks
        obtain ⟨r, hr, hprod, hoff, hrbit⟩ := @blockBody_tokens _ _ limit _ g.toks _
            (extractTag data s) (fuel + (groupTokens groups).length + 1)
            (List.length_pos_iff.mp hpos)
            (by rw [hextract]; exact ⟨hs.dest, hs.mem, hs.outLen, hs.split, hs.nextThreshold⟩)
            hfit.1 (by rw [hextract]; simpa [hbit0] using g.length_le)
            (by rw [hextract]; exact g.flags) (by rw [hextract]; exact hdata₁)
            (by rw [hextract]; dsimp only; omega) (by omega)
        have hoff' : r.offset = s.offset + 1 + (encodeTokens out.length g.toks).length := by
          rw [hoff, hextract]
        obtain ⟨u, hu, hmem⟩ := ih hprod htagged.tail
          (by
            intro hne
            rw [hrbit, htagged.head hne, hextract]
            simp [hbit0])
          (by rw [expandFrom_length]; exact hfit.2)
          (by rw [expandFrom_length, hoff']; exact hdata₂)
          (by rw [expandFrom_length, hoff']; omega) (by rw [expandFrom_length]; omega)
        have hfuel : fuel + (groupTokens (g :: groups)).length + 1 =
            fuel + (groupTokens groups).length + 1 + (g.toks.length - 1) + 1 := by
          rw [groupTokens_cons, List.length_append]
          omega
        refine ⟨u, ?_, ?_⟩
        · rw [hfuel, blockLoop_of_tagBit_eq (by omega) hbit0, hr, hu, groupTokens_cons,
            expandFrom_append]
        · rw [hmem, groupTokens_cons, expandFrom_append]

/-- `lznt1_block` decodes a compressed chunk. -/
theorem lznt1Block_chunk {data : Mem} (a : ℕ) (m : Mem) (c : CompressedChunk) {offset : ℕ}
    (hdata : data.bytes offset (encodeGroups 0 c.groups).length = encodeGroups 0 c.groups)
    (trace : List Access) :
    ∃ u, lznt1Block data (offset + (encodeGroups 0 c.groups).length) offset (some a) m trace =
        some (((Chunk.compressed c).output.length : ℤ), u) ∧
      u.mem = m.store a (Chunk.compressed c).output := by
  have hge := encodeGroups_length_ge 0 c.groups
  obtain ⟨u, hu, hmem⟩ := @blockLoop_groups data a _ m c.groups []
      ⟨offset, some a, m, 0, 12, 16, 0, 0, trace⟩
      ((encodeGroups 0 c.groups).length - (groupTokens c.groups).length)
      ⟨rfl, by simp, rfl, by simp [splitAt, offsetBitsAt], by simp [offsetBitsAt]⟩ c.tagged
      (fun _ => rfl) c.fit hdata rfl (by simpa using c.le)
  refine ⟨u, ?_, hmem⟩
  rw [lznt1Block, Nat.add_sub_cancel_left]
  rw [Nat.sub_add_cancel hge] at hu
  exact hu

/-! ## The stream -/

/-- A header has two bytes. -/
theorem Chunk.header_lt (sig : Fin 8) (c : Chunk) : c.header sig < 256 ^ 2 := by
  have hpos := c.data_length_pos
  have hle := c.data_length_le
  have hsig := sig.isLt
  cases c <;> simp only [Chunk.header, Chunk.flag] <;> omega

/-- The data length is read back from a header. -/
theorem lznt1BlockLen_header (sig : Fin 8) (c : Chunk) :
    lznt1BlockLen (c.header sig) = c.data.length := by
  have hpos := c.data_length_pos
  have hle := c.data_length_le
  have hmod : c.header sig % 4096 = c.data.length - 1 := by
    cases c <;> simp only [Chunk.header, Chunk.flag] <;> omega
  rw [lznt1BlockLen, show (0x0fff : ℕ) = 2 ^ 12 - 1 from rfl, Nat.and_two_pow_sub_one_eq_mod, hmod]
  omega

/-- The kind of a chunk is read back from its header. -/
theorem lznt1BlockCompressed_header (sig : Fin 8) (c : Chunk) :
    lznt1BlockCompressed (c.header sig) = true ↔ c.flag ≠ 0 := by
  have hpos := c.data_length_pos
  have hle := c.data_length_le
  have hsig := sig.isLt
  rw [lznt1BlockCompressed, show (0x8000 : ℕ) = 2 ^ 15 from rfl, Nat.and_two_pow]
  cases c with
  | raw c =>
      have hbit : (Chunk.raw c).header sig / 32768 % 2 = 0 := by
        simp only [Chunk.header, Chunk.flag]
        omega
      simp [Nat.testBit_eq_decide_div_mod_eq, hbit, Chunk.flag]
  | compressed c =>
      have hbit : (Chunk.compressed c).header sig / 32768 % 2 = 1 := by
        simp only [Chunk.header, Chunk.flag]
        omega
      simp [Nat.testBit_eq_decide_div_mod_eq, hbit, Chunk.flag]

/-- Equation lemma: the first chunk comes first. -/
@[simp] theorem encodeChunks_cons (c : Fin 8 × Chunk) (chunks : List (Fin 8 × Chunk))
    (tail : List UInt8) :
    encodeChunks (c :: chunks) tail =
      leBytes 2 (c.2.header c.1) ++ (c.2.data ++ encodeChunks chunks tail) := by
  simp [encodeChunks, encodeChunk]

/-- **One chunk.** Behind the output of the chunks before it, a round of the stream loop writes the
output of a chunk and moves past its data. -/
theorem streamLoop_chunk {data : Mem} {len buf : ℕ} {m : Mem} {out : List UInt8} {s : StreamState}
    (fuel : ℕ) (c : Fin 8 × Chunk) (hmem : s.mem = m.store buf out)
    (hout : s.outLen = out.length)
    (hheader : data.bytes s.offset 2 = leBytes 2 (c.2.header c.1))
    (hdata : data.bytes (s.offset + 2) c.2.data.length = c.2.data)
    (hle : s.offset + 2 + c.2.data.length ≤ len) :
    ∃ u, streamLoop data len (some buf) (fuel + 1) s = streamLoop data len (some buf) fuel u ∧
      u.mem = m.store buf (out ++ c.2.output) ∧ u.outLen = (out ++ c.2.output).length ∧
      u.offset = s.offset + 2 + c.2.data.length := by
  obtain ⟨sig, c⟩ := c
  have hword : data.word s.offset 2 = c.header sig := by
    rw [Mem.word, hheader, leNat_leBytes_of_lt (c.header_lt sig)]
  have hcompressed := lznt1BlockCompressed_header sig c
  have hnat : (out.length : ℤ).toNat = out.length := Int.toNat_natCast _
  have h1 : ¬ (s.offset + 1 = len ∧ data s.offset = 0) := by
    dsimp only at hle
    omega
  rw [streamLoop, if_neg (by dsimp only at hle; omega), if_neg h1,
    if_neg (by dsimp only at hle; omega)]
  simp only [hword, lznt1BlockLen_header, Option.map_some, hout, hnat] at *
  cases c with
  | raw c =>
      have hflag : ¬ lznt1BlockCompressed ((Chunk.raw c).header sig) = true := by
        rw [hcompressed]
        exact fun h => h rfl
      rw [if_neg hflag, if_neg (by omega)]
      refine ⟨_, rfl, ?_, ?_, rfl⟩
      · dsimp only
        rw [hmem, Mem.copy_eq_store, hdata, ← Mem.store_append]
        rfl
      · simp [Chunk.data, Chunk.output]
  | compressed c =>
      have hflag : lznt1BlockCompressed ((Chunk.compressed c).header sig) = true := by
        rw [hcompressed]
        exact fun h => absurd h (by simp [Chunk.flag])
      obtain ⟨b, hb, hbmem⟩ := lznt1Block_chunk (buf + out.length) s.mem c hdata
        (.read s.offset 2 :: s.trace)
      rw [if_pos hflag]
      simp only [Chunk.data] at hb ⊢
      rw [hb]
      refine ⟨_, if_neg (by omega), ?_, ?_, rfl⟩
      · dsimp only
        rw [hbmem, hmem, ← Mem.store_append]
      · simp

/-- The chunks that are left, and the zero byte that may follow them. -/
theorem streamLoop_chunks {data : Mem} {len buf : ℕ} {m : Mem} {tail : List UInt8}
    (htail : tail = [] ∨ tail = [0]) (chunks : List (Fin 8 × Chunk)) {out : List UInt8}
    {s : StreamState} (fuel : ℕ) (hmem : s.mem = m.store buf out) (hout : s.outLen = out.length)
    (hdata : data.bytes s.offset (encodeChunks chunks tail).length = encodeChunks chunks tail)
    (hlen : s.offset + (encodeChunks chunks tail).length = len) :
    ∃ u, streamLoop data len (some buf) (fuel + chunks.length + 1) s =
        some (((out ++ streamOutput chunks).length : ℤ), u) ∧
      u.mem = m.store buf (out ++ streamOutput chunks) := by
  induction chunks generalizing out s with
  | nil =>
      rw [streamOutput, List.flatMap_nil, List.append_nil]
      rcases htail with rfl | rfl
      · have hend : s.offset = len := by simpa [encodeChunks] using hlen
        refine ⟨s, ?_, hmem⟩
        rw [streamLoop, if_pos hend, hout]
      · have hend : s.offset + 1 = len := by simpa [encodeChunks] using hlen
        have hzero : data s.offset = 0 := by simpa [encodeChunks, Mem.bytes] using hdata
        refine ⟨{ s with trace := .read s.offset 1 :: s.trace }, ?_, hmem⟩
        rw [streamLoop, if_neg (by omega), if_pos ⟨hend, hzero⟩, hout]
  | cons c chunks ih =>
      rw [encodeChunks_cons] at hdata hlen
      obtain ⟨hheader, hrest⟩ := Mem.bytes_append_iff.mp hdata
      obtain ⟨hchunk, hrest⟩ := Mem.bytes_append_iff.mp hrest
      rw [leBytes_length] at hheader hchunk hrest
      simp only [List.length_append, leBytes_length] at hlen
      obtain ⟨u, hu, humem, huout, huoff⟩ :=
        @streamLoop_chunk _ len _ _ _ _ (fuel + chunks.length + 1) c hmem hout hheader hchunk
            (by omega)
      obtain ⟨v, hv, hvmem⟩ := ih humem huout (by rw [huoff]; exact hrest) (by rw [huoff]; omega)
      have happ : out ++ streamOutput (c :: chunks) =
          out ++ c.2.output ++ streamOutput chunks := by simp [streamOutput]
      refine ⟨v, ?_, ?_⟩
      · rw [List.length_cons, ← Nat.add_assoc, hu, hv, happ]
      · rw [hvmem, happ]

/-- A stream has a byte for every chunk at least. -/
theorem length_le_encodeChunks (chunks : List (Fin 8 × Chunk)) (tail : List UInt8) :
    chunks.length ≤ (encodeChunks chunks tail).length := by
  induction chunks with
  | nil => exact Nat.zero_le _
  | cons c chunks ih =>
      simp only [encodeChunks_cons, List.length_append, List.length_cons, leBytes_length]
      omega

/-- **LZNT1 decompression undoes LZNT1 encoding.** Of a stream of chunks, each raw or a token
sequence, with or without the final zero byte, `lznt1_decompress` returns the length of the output
and writes exactly the output to the buffer.
Source: libnt/lznt1.c, lznt1_decompress, lznt1_block -/
theorem lznt1Decompress_encodeStream (chunks : List (Fin 8 × Chunk)) (terminated : Bool)
    (data : Mem) (buf : ℕ) (m : Mem)
    (hdata : data.bytes 0 (encodeStream chunks terminated).length =
      encodeStream chunks terminated) :
    ∃ u, lznt1Decompress data (encodeStream chunks terminated).length (some buf) m =
        some (((streamOutput chunks).length : ℤ), u) ∧
      u.mem = m.store buf (streamOutput chunks) := by
  have hlen := length_le_encodeChunks chunks (if terminated then [0] else [])
  have htail : (if terminated then [0] else []) = ([] : List UInt8) ∨
      (if terminated then [0] else []) = ([0] : List UInt8) := by
    cases terminated
    · exact Or.inl rfl
    · exact Or.inr rfl
  obtain ⟨u, hu, humem⟩ := @streamLoop_chunks data ((encodeStream chunks terminated).length) buf m _
      htail chunks [] ⟨0, 0, m, []⟩ ((encodeStream chunks terminated).length + 1 - chunks.length)
      (by simp) rfl hdata (Nat.zero_add _)
  refine ⟨u, ?_, humem⟩
  rw [List.nil_append] at hu
  rw [← hu, lznt1Decompress]
  congr 1
  simp only [encodeStream] at *
  omega

/-- The byte `a`, then itself three more times. -/
def runGroup : Group where
  tag := 2
  toks := [.lit 97, .backref 1 3]
  length_le := by decide
  flags := by decide

/-- A compressed chunk of the one group `runGroup`. -/
def runChunk : CompressedChunk where
  groups := [runGroup]
  tagged := by simp [Tagged]
  fit := by simp [runGroup, TokensFit, AllAt, TokenFits, Token.size, offsetBitsAt, splitAt]
  data_le := by simp [runGroup, encodeGroups, encodeTokens, tokenBytes]
  pos := by decide
  le := by decide

/-- The stream of `runChunk` and a zero byte is decompressed to `aaaa`. -/
theorem lznt1Decompress_runChunk :
    ∃ u, lznt1Decompress (Mem.ofList (encodeStream [(3, .compressed runChunk)] true))
        (encodeStream [(3, .compressed runChunk)] true).length (some 0) Mem.zero =
        some (4, u) ∧
      u.mem = Mem.zero.store 0 [97, 97, 97, 97] :=
  lznt1Decompress_encodeStream [(3, .compressed runChunk)] true _ 0 Mem.zero (Mem.ofList_bytes _)

end Ntloader.Lznt1
