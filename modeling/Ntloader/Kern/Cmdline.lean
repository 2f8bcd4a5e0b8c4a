import Ntloader.Kern.Args
import Mathlib.Data.List.TakeWhile

/-!
# Command line

The command line is parsed in place: NULs cut it into keys and values while an argument is
processed, and are undone behind it.

* `processCmdline` — kern/cmdline.c, process_cmdline.
* `words`, `processWord` — what the arguments of a string are.
* `processLoop_fold` — the parser is the fold over the words and leaves the memory as it was.

Scope: the message with the command line is left out.
-/

namespace Ntloader.Kern

open Ntloader.Lib Ntloader.Posix

/-! ## The parser -/

/-- Skip whitespace. -/
def skipSpace (m : Mem) : ℕ → ℕ → Option ℕ
  | 0, _ => none
  | fuel + 1, tmp => if isspace (m tmp) then skipSpace m fuel (tmp + 1) else some tmp

/-- Find value (if any) and end of this argument: the memory, `tmp`, `value` and `chr`. -/
def scanArgument : ℕ → Mem → ℕ → Option ℕ → Option (Mem × ℕ × Option ℕ × UInt8)
  | 0, _, _, _ => none
  | fuel + 1, m, tmp, value =>
      let chr := m tmp
      if chr = 0 then some (m, tmp, value, chr)
      else if isspace chr then some (Function.update m tmp 0, tmp + 1, value, chr)
      else if chr = 0x3d ∧ value = none then
        scanArgument fuel (Function.update m tmp 0) (tmp + 1) (some (tmp + 1))
      else scanArgument fuel m (tmp + 1) value

/-- Undo modifications to command line. -/
def undoArgument (m : Mem) (tmp : ℕ) (value : Option ℕ) (chr : UInt8) : Mem :=
  let m := if chr ≠ 0 then Function.update m (tmp - 1) chr else m
  match value with
  | none => m
  | some value => Function.update m (value - 1) 0x3d

/-- The loop over the arguments; `none` if the fuel is used up.
Source: kern/cmdline.c, process_cmdline, `Parse command line` -/
def processLoop (arch : Arch) : ℕ → Mem → ℕ → NtArgs → Option (Except Die (NtArgs × Mem))
  | 0, _, _, _ => none
  | fuel + 1, m, tmp, args =>
      if m tmp = 0 then some (.ok (args, m))
      else do
        let key ← skipSpace m fuel tmp
        let (m, tmp, value, chr) ← scanArgument fuel m key none
        let keyStr ← cstr m fuel key
        let valueStr ← value.mapM (cstr m fuel)
        match processArgument arch args keyStr valueStr with
        | .error e => some (.error e)
        | .ok args => processLoop arch fuel (undoArgument m tmp value chr) tmp args

/-- Process command line: `none` for a pointer is NULL.
Source: kern/cmdline.c, process_cmdline -/
def processCmdline (arch : Arch) (fuel : ℕ) (m : Mem) (args : NtArgs) :
    Option ℕ → Option (Except Die (NtArgs × Mem))
  | none => some (.ok (args, m))
  | some cmdline =>
      if m cmdline = 0 then some (.ok (args, m))
      else (processLoop arch fuel m cmdline args).map (·.map fun r => (fillDefaults r.1, r.2))

/-! ## What it computes -/

/-- The maximal runs of characters that are no whitespace. -/
def words (s : List UInt8) : List (List UInt8) := (s.splitOnP isspace).filter (· ≠ [])

/-- A run up to its first `=` is the key; what is behind it is the value. -/
def splitWord (w : List UInt8) : List UInt8 × Option (List UInt8) :=
  (w.takeWhile (· ≠ 0x3d), if 0x3d ∈ w then some (w.dropWhile (· ≠ 0x3d)).tail else none)

/-- The update of one argument. -/
def processWord (arch : Arch) (args : NtArgs) (w : List UInt8) : Except Die NtArgs :=
  processArgument arch args (splitWord w).1 (splitWord w).2

/-! ## Words -/

/-- Nothing has no words. -/
theorem words_nil : words [] = [] := by simp [words]

/-- A space in front adds none, -/
theorem words_space {c : UInt8} (hc : isspace c = true) (s : List UInt8) :
    words (c :: s) = words s := by
  simp [words, List.splitOnP_cons_eq_if_modifyHead, hc]

/-- nor do several. -/
theorem words_dropWhile (s : List UInt8) : words (s.dropWhile isspace) = words s := by
  induction s with
  | nil => rfl
  | cons c s ih =>
      rw [List.dropWhile_cons]
      split_ifs with hc
      · rw [ih, words_space hc]
      · rfl

/-- A run at the end of the string. -/
theorem words_run {w : List UInt8} (hw : ∀ c ∈ w, isspace c = false) (hne : w ≠ []) :
    words w = [w] := by
  rw [words, List.splitOnP_eq_singleton hw]
  simp [hne]

/-- A run that ends at a space. -/
theorem words_run_append {w : List UInt8} {c : UInt8} (hw : ∀ c ∈ w, isspace c = false)
    (hne : w ≠ []) (hc : isspace c = true) (s : List UInt8) :
    words (w ++ c :: s) = w :: words s := by
  rw [words, List.splitOnP_append_cons_of_forall_mem hw c hc]
  simp [words, hne]

/-- A word without `=` is a key only, -/
theorem splitWord_key {w : List UInt8} (hw : 0x3d ∉ w) : splitWord w = (w, none) := by
  have h : w.takeWhile (· ≠ 0x3d) = w := List.takeWhile_eq_self_iff.mpr fun c hc => by
    simpa using fun h : c = 0x3d => hw (h ▸ hc)
  rw [splitWord, h, if_neg hw]

/-- and one with it has what follows as its value. -/
theorem splitWord_value {k : List UInt8} (hk : 0x3d ∉ k) (v : List UInt8) :
    splitWord (k ++ 0x3d :: v) = (k, some v) := by
  have h : ∀ c ∈ k, decide (c ≠ 0x3d) = true := fun c hc => by
    simpa using fun h : c = 0x3d => hk (h ▸ hc)
  rw [splitWord, List.takeWhile_append_of_pos h, List.dropWhile_append_of_pos h, if_pos (by simp)]
  simp

/-! ## One argument -/

/-- The loop over spaces stops behind them. -/
theorem skipSpace_eq {m : Mem} {a fuel : ℕ} {s : List UInt8}
    (h : m.bytes a (s.length + 1) = s ++ [0]) (hfuel : s.length < fuel) :
    skipSpace m fuel a = some (a + (s.takeWhile isspace).length) := by
  induction s generalizing a fuel with
  | nil =>
      obtain ⟨fuel, rfl⟩ : ∃ k, fuel = k + 1 := ⟨fuel - 1, by rw [List.length_nil] at hfuel; omega⟩
      rw [List.length_nil, Mem.bytes_succ, List.nil_append, List.cons.injEq] at h
      rw [skipSpace, h.1, if_neg (by decide)]
      rfl
  | cons c s ih =>
      obtain ⟨fuel, rfl⟩ : ∃ k, fuel = k + 1 := ⟨fuel - 1, by omega⟩
      rw [List.length_cons, Mem.bytes_succ, List.cons_append, List.cons.injEq] at h
      rw [List.length_cons] at hfuel
      rw [skipSpace, h.1, List.takeWhile_cons]
      split_ifs with hc
      · rw [ih h.2 (by omega), List.length_cons, Nat.add_right_comm, Nat.add_assoc]
      · rfl

/-- A run with no `=` that counts is cut at its end. The rest `t` starts with a space, or is
empty. -/
theorem scanArgument_run {m : Mem} {a fuel : ℕ} {value : Option ℕ} {w t : List UInt8}
    (h : m.bytes a ((w ++ t).length + 1) = w ++ t ++ [0]) (hw : ∀ c ∈ w, isspace c = false)
    (hnul : (0 : UInt8) ∉ w ++ t) (ht : ∀ c ∈ t.head?, isspace c = true)
    (hv : 0x3d ∈ w → value ≠ none) (hfuel : w.length < fuel) :
    scanArgument fuel m a value =
      some (Function.update m (a + w.length) 0, a + w.length + min t.length 1, value, t.headD 0) := by
  induction w generalizing a fuel with
  | nil =>
      obtain ⟨fuel, rfl⟩ : ∃ k, fuel = k + 1 := ⟨fuel - 1, by rw [List.length_nil] at hfuel; omega⟩
      cases t with
      | nil =>
          have hm : m a = 0 := by
            rw [List.append_nil, List.length_nil, Mem.bytes_succ, List.nil_append,
              List.cons.injEq] at h
            exact h.1
          rw [scanArgument]
          rw [if_pos hm, hm, List.length_nil, Nat.add_zero, ← hm, Function.update_eq_self]
          rfl
      | cons c t =>
          have hm : m a = c := by
            rw [List.nil_append, List.length_cons, Mem.bytes_succ, List.cons_append,
              List.cons.injEq] at h
            exact h.1
          have hc : c ≠ 0 := fun hc => hnul (by rw [hc]; exact List.mem_cons_self)
          have hsp : isspace c = true := ht c rfl
          rw [scanArgument]
          rw [hm, if_neg hc, if_pos hsp, List.length_nil, Nat.add_zero, List.length_cons,
            Nat.min_eq_right (Nat.le_add_left 1 _)]
          rfl
  | cons c w ih =>
      obtain ⟨fuel, rfl⟩ : ∃ k, fuel = k + 1 := ⟨fuel - 1, by omega⟩
      rw [List.cons_append, List.length_cons, Mem.bytes_succ, List.cons_append,
        List.cons.injEq] at h
      rw [List.cons_append, List.mem_cons, not_or] at hnul
      rw [List.length_cons] at hfuel
      have hsp := hw c List.mem_cons_self
      have hne : ¬(c = 0x3d ∧ value = none) := fun hc =>
        hv (by rw [hc.1]; exact List.mem_cons_self) hc.2
      rw [scanArgument]
      rw [h.1, if_neg (Ne.symm hnul.1), hsp, if_neg Bool.false_ne_true, if_neg hne,
        ih h.2 (fun d hd => hw d (List.mem_cons_of_mem _ hd)) hnul.2
          (fun hd => hv (List.mem_cons_of_mem _ hd)) (by omega),
        List.length_cons, Nat.add_assoc a 1, Nat.add_comm 1]

/-- A run with an `=` is cut there and at its end. -/
theorem scanArgument_value {m : Mem} {a fuel : ℕ} {k v t : List UInt8}
    (h : m.bytes a ((k ++ 0x3d :: v ++ t).length + 1) = k ++ 0x3d :: v ++ t ++ [0])
    (hw : ∀ c ∈ k ++ 0x3d :: v, isspace c = false) (hnul : (0 : UInt8) ∉ k ++ 0x3d :: v ++ t)
    (ht : ∀ c ∈ t.head?, isspace c = true) (hk : 0x3d ∉ k)
    (hfuel : (k ++ 0x3d :: v).length < fuel) :
    scanArgument fuel m a none =
      some (Function.update (Function.update m (a + k.length) 0) (a + (k ++ 0x3d :: v).length) 0,
        a + (k ++ 0x3d :: v).length + min t.length 1, some (a + k.length + 1), t.headD 0) := by
  induction k generalizing a fuel with
  | nil =>
      obtain ⟨fuel, rfl⟩ : ∃ k, fuel = k + 1 := ⟨fuel - 1, by omega⟩
      rw [List.nil_append, List.cons_append, List.length_cons, Mem.bytes_succ, List.cons_append,
        List.cons.injEq] at h
      rw [List.nil_append, List.cons_append, List.mem_cons, not_or] at hnul
      rw [List.nil_append, List.length_cons] at hfuel
      have h' : Mem.bytes (Function.update m a 0) (a + 1) ((v ++ t).length + 1) = v ++ t ++ [0] := by
        rw [← h.2]
        exact Mem.bytes_congr fun i hi => Function.update_of_ne (by omega) _ _
      rw [scanArgument]
      rw [h.1, if_neg (by decide), if_neg (by decide), if_pos ⟨rfl, rfl⟩,
        scanArgument_run h' (fun c hc => hw c (List.mem_cons_of_mem _ hc)) hnul.2 ht
          (fun _ => Option.some_ne_none _) (by omega),
        List.nil_append, List.length_nil, List.length_cons, Nat.add_assoc a 1, Nat.add_comm 1]
      rfl
  | cons c k ih =>
      obtain ⟨fuel, rfl⟩ : ∃ k, fuel = k + 1 := ⟨fuel - 1, by omega⟩
      rw [List.cons_append, List.cons_append, List.length_cons, Mem.bytes_succ, List.cons_append,
        List.cons.injEq] at h
      rw [List.cons_append, List.cons_append, List.mem_cons, not_or] at hnul
      rw [List.cons_append, List.length_cons] at hfuel
      rw [List.mem_cons, not_or] at hk
      have hsp := hw c List.mem_cons_self
      rw [scanArgument]
      rw [h.1, if_neg (Ne.symm hnul.1), hsp, if_neg Bool.false_ne_true,
        if_neg fun hc => hk.1 hc.1.symm,
        ih h.2 (fun d hd => hw d (List.mem_cons_of_mem _ hd)) hnul.2 hk.2 (by omega),
        List.cons_append, List.length_cons, List.length_cons, Nat.add_assoc a 1, Nat.add_comm 1,
        Nat.add_assoc a 1, Nat.add_comm 1]

/-- A value's `=` is put back as well. -/
theorem undoArgument_value (m : Mem) (tmp value : ℕ) (chr : UInt8) :
    undoArgument m tmp (some value) chr =
      Function.update (undoArgument m tmp none chr) (value - 1) 0x3d := rfl

/-- The cut at the end of an argument is undone. -/
theorem undoArgument_none {m : Mem} {x : ℕ} {t : List UInt8} (hm : m x = t.headD 0)
    (hnul : (0 : UInt8) ∉ t) :
    undoArgument (Function.update m x 0) (x + min t.length 1) none (t.headD 0) = m := by
  cases t with
  | nil =>
      have h0 : m x = 0 := hm
      rw [undoArgument]
      rw [if_neg (by simp), ← h0, Function.update_eq_self]
  | cons c t =>
      have hc : c ≠ 0 := fun hc => hnul (by rw [hc]; exact List.mem_cons_self)
      have hx : m x = c := hm
      rw [undoArgument, List.headD_cons, List.length_cons, Nat.min_eq_right (Nat.le_add_left 1 _),
        Nat.add_sub_cancel]
      rw [if_pos hc, Function.update_idem, ← hx, Function.update_eq_self]

/-- The cut behind the key is undone as well. -/
theorem undoArgument_some {m : Mem} {x y : ℕ} {t : List UInt8} (hy : m y = 0x3d) (hxy : y < x)
    (hm : m x = t.headD 0) (hnul : (0 : UInt8) ∉ t) :
    undoArgument (Function.update (Function.update m y 0) x 0) (x + min t.length 1) (some (y + 1))
      (t.headD 0) = m := by
  have hx : Function.update m y 0 x = t.headD 0 := by
    rw [Function.update_of_ne (by omega), hm]
  rw [undoArgument_value, undoArgument_none hx hnul, Nat.add_sub_cancel,
    Function.update_idem, ← hy, Function.update_eq_self]

/-- A word that is cut ends with a NUL. -/
theorem bytes_cut {m : Mem} {a : ℕ} {w : List UInt8} (h : m.bytes a w.length = w) :
    Mem.bytes (Function.update m (a + w.length) 0) a (w.length + 1) = w ++ [0] := by
  have hw : Mem.bytes (Function.update m (a + w.length) 0) a w.length = w := by
    refine Eq.trans ?_ h
    exact Mem.bytes_congr fun i hi => Function.update_of_ne (by omega) _ _
  rw [Mem.bytes_add, hw, Mem.bytes_succ, Mem.bytes_zero, Function.update_self]

/-- The end of a run that is read: the cut is where the run ends. -/
theorem scanArgument_eq {m : Mem} {a fuel : ℕ} {w t : List UInt8}
    (h : m.bytes a ((w ++ t).length + 1) = w ++ t ++ [0]) (hw : ∀ c ∈ w, isspace c = false)
    (hnul : (0 : UInt8) ∉ w ++ t) (ht : ∀ c ∈ t.head?, isspace c = true)
    (hfuel : w.length < fuel) :
    ∃ m' value, scanArgument fuel m a none =
        some (m', a + w.length + min t.length 1, value, t.headD 0) ∧
      cstr m' fuel a = some (splitWord w).1 ∧ value.mapM (cstr m' fuel) = some (splitWord w).2 ∧
      undoArgument m' (a + w.length + min t.length 1) value (t.headD 0) = m := by
  have hmt : m (a + w.length) = t.headD 0 := by
    have hwt := h
    rw [List.length_append, List.append_assoc, Nat.add_assoc, Mem.bytes_add] at hwt
    have hcons := (List.append_inj hwt (Mem.bytes_length _ _ _)).2
    rw [Mem.bytes_succ] at hcons
    cases t with
    | nil => exact (List.cons.inj hcons).1
    | cons c t => exact (List.cons.inj hcons).1
  have hmw : m.bytes a w.length = w := by
    rw [List.length_append, List.append_assoc, Nat.add_assoc, Mem.bytes_add] at h
    exact (List.append_inj h (Mem.bytes_length _ _ _)).1
  rw [List.mem_append, not_or] at hnul
  by_cases heq : 0x3d ∈ w
  · obtain ⟨k, v, rfl, hk⟩ := List.eq_append_cons_of_mem heq
    have hlen : (k ++ 0x3d :: v).length = k.length + 1 + v.length := by
      rw [List.length_append, List.length_cons, Nat.add_right_comm, Nat.add_assoc]
    obtain ⟨hmk, hmv⟩ := Mem.bytes_append_iff.mp hmw
    rw [List.length_cons, Mem.bytes_succ, List.cons.injEq] at hmv
    rw [List.mem_append, List.mem_cons, not_or, not_or] at hnul
    refine ⟨_, some (a + k.length + 1), scanArgument_value h hw ?_ ht hk hfuel, ?_, ?_,
      undoArgument_some hmv.1 (by omega) hmt hnul.2⟩
    · simpa [not_or, and_assoc] using hnul
    · rw [splitWord_value hk]
      refine cstr_eq (s := k) ?_ hnul.1.1 (by omega)
      refine (Mem.bytes_congr fun i hi => Function.update_of_ne (by omega) _ _).trans (bytes_cut hmk)
    · have hv : Mem.bytes (Function.update (Function.update m (a + k.length) 0)
          (a + (k ++ 0x3d :: v).length) 0) (a + k.length + 1) (v.length + 1) = v ++ [0] := by
        rw [hlen, show a + (k.length + 1 + v.length) = a + k.length + 1 + v.length by omega]
        apply bytes_cut
        refine Eq.trans ?_ hmv.2
        exact Mem.bytes_congr fun i hi => Function.update_of_ne (by omega) _ _
      rw [splitWord_value hk, Option.mapM_some, cstr_eq hv hnul.1.2.2 (by omega)]
      rfl
  · refine ⟨_, none, scanArgument_run h hw (by simpa using hnul) ht (fun hw => absurd hw heq) hfuel,
      ?_, ?_, undoArgument_none hmt hnul.2⟩
    · rw [splitWord_key heq]
      exact cstr_eq (bytes_cut hmw) hnul.1 hfuel
    · rw [splitWord_key heq]
      rfl

/-! ## All arguments -/

/-- A string is whitespace, a run and a rest that starts with a space or is empty; the first word is
the run. -/
theorem words_cut (s : List UInt8) : ∃ w t : List UInt8, s = s.takeWhile isspace ++ (w ++ t) ∧
    (∀ c ∈ w, isspace c = false) ∧ (∀ c ∈ t.head?, isspace c = true) ∧ (w = [] → t = []) ∧
    words s = if w = [] then [] else w :: words t.tail := by
  obtain ⟨r, hr⟩ : ∃ r, s.dropWhile isspace = r := ⟨_, rfl⟩
  obtain ⟨w, hw⟩ : ∃ w, r.takeWhile (fun c => !isspace c) = w := ⟨_, rfl⟩
  obtain ⟨t, ht⟩ : ∃ t, r.dropWhile (fun c => !isspace c) = t := ⟨_, rfl⟩
  have hwt : w ++ t = r := by rw [← hw, ← ht, List.takeWhile_append_dropWhile]
  have hrun : ∀ c ∈ w, isspace c = false := fun c hc => by
    rw [← hw] at hc
    simpa using List.mem_takeWhile_imp hc
  have hhead : ∀ c ∈ t.head?, isspace c = true := fun c hc => by
    have h := List.head?_dropWhile_not (fun c => !isspace c) r
    rw [ht, Option.mem_def.mp hc] at h
    simpa using h
  have hnil : w = [] → t = [] := fun hw => by
    have h := List.head?_dropWhile_not isspace s
    rw [hr, ← hwt, hw, List.nil_append] at h
    cases t with
    | nil => rfl
    | cons c t =>
        have hc : isspace c = false := h
        rw [hhead c rfl] at hc
        cases hc
  refine ⟨w, t, ?_, hrun, hhead, hnil, ?_⟩
  · rw [hwt, ← hr, List.takeWhile_append_dropWhile]
  · rw [← words_dropWhile, hr, ← hwt]
    split_ifs with hne
    · rw [hne, hnil hne, List.append_nil, words_nil]
    · cases t with
      | nil => rw [List.append_nil, words_run hrun hne, List.tail_nil, words_nil]
      | cons c t => rw [words_run_append hrun hne (hhead c rfl), List.tail_cons]

/-- The parser is the fold over the words and leaves the memory as it was. -/
theorem processLoop_fold (arch : Arch) {m : Mem} {a fuel : ℕ} {s : List UInt8} (args : NtArgs)
    (h : m.bytes a (s.length + 1) = s ++ [0]) (hnul : (0 : UInt8) ∉ s)
    (hfuel : s.length + 1 < fuel) :
    processLoop arch fuel m a args =
      some (((words s).foldlM (processWord arch) args).map fun args => (args, m)) := by
  induction fuel generalizing a s args with
  | zero => omega
  | succ fuel ih =>
      by_cases hs : s = []
      · rw [hs, List.length_nil, Mem.bytes_succ, List.nil_append, List.cons.injEq] at h
        rw [processLoop, if_pos h.1, hs, words_nil]
        rfl
      · obtain ⟨w, t, hcut, hw, ht, hnil, hwords⟩ := words_cut s
        have hskip := @skipSpace_eq _ _ fuel _ h (by omega)
        generalize s.takeWhile isspace = sp at hcut hskip
        subst hcut
        have hne : m a ≠ 0 := by
          obtain ⟨c, s', hcs⟩ := List.exists_cons_of_ne_nil hs
          rw [hcs, List.length_cons, Mem.bytes_succ, List.cons_append, List.cons.injEq] at h
          rw [hcs, List.mem_cons, not_or] at hnul
          exact fun h0 => hnul.1 (h0.symm.trans h.1)
        have hrest : m.bytes (a + sp.length) ((w ++ t).length + 1) = w ++ t ++ [0] := by
          rw [List.length_append, List.append_assoc, Nat.add_assoc, Mem.bytes_add] at h
          exact (List.append_inj h (Mem.bytes_length _ _ _)).2
        rw [List.mem_append, not_or] at hnul
        simp only [List.length_append] at hfuel
        obtain ⟨m', value, hscan, hkey, hvalue, hundo⟩ :=
          @scanArgument_eq _ _ fuel _ _ hrest hw hnul.2 ht (by omega)
        rw [processLoop, if_neg hne, hskip, Option.bind_eq_bind, Option.bind_some, hscan]
        dsimp only [Option.bind_eq_bind, Option.bind_some]
        rw [hkey, hvalue, hundo]
        have htail : m.bytes (a + sp.length + w.length + min t.length 1) (t.tail.length + 1) =
            t.tail ++ [0] := by
          have hmt := hrest
          rw [List.length_append, List.append_assoc, Nat.add_assoc, Mem.bytes_add] at hmt
          have ht0 := (List.append_inj hmt (Mem.bytes_length _ _ _)).2
          cases t with
          | nil => exact ht0
          | cons c t =>
              rw [List.length_cons, Mem.bytes_succ, List.cons_append, List.cons.injEq] at ht0
              rw [List.tail_cons, List.length_cons, Nat.min_eq_right (Nat.le_add_left 1 _)]
              exact ht0.2
        have hnul' : (0 : UInt8) ∉ t.tail := fun h0 =>
          hnul.2 (List.mem_append_right _ (List.mem_of_mem_tail h0))
        -- A string that is not empty holds a space, or its run is not empty.
        have hpos : 0 < sp.length + (w.length + t.length) := by
          rw [← List.length_append, ← List.length_append]
          exact List.length_pos_of_ne_nil hs
        have hlen : t.tail.length + 1 < fuel := by
          rw [List.length_tail]
          omega
        have hword : processArgument arch args (splitWord w).1 (splitWord w).2 =
          processWord arch args w := rfl
        dsimp only [Option.bind_some]
        rw [hword, hwords]
        by_cases hw0 : w = []
        · have hargs : processWord arch args [] = .ok args := processArgument_nil arch args none
          have hcont := ih args htail hnul' hlen
          rw [hnil hw0, List.tail_nil, words_nil] at hcont
          rw [hw0] at hcont ⊢
          rw [if_pos rfl, hargs, hnil hw0]
          exact hcont
        · rw [if_neg hw0, List.foldlM_cons]
          rcases processWord arch args w with e | args'
          · rfl
          · exact ih args' htail hnul' hlen

/-- The defaults are filled in behind the words, unless there is no command line. -/
theorem processCmdline_eq (arch : Arch) {m : Mem} {cmdline fuel : ℕ} {s : List UInt8}
    (h : m.bytes cmdline (s.length + 1) = s ++ [0]) (hnul : (0 : UInt8) ∉ s)
    (hfuel : s.length + 1 < fuel) (args : NtArgs) :
    processCmdline arch fuel m args (some cmdline) =
      some (((words s).foldlM (processWord arch) args).map fun args =>
        (if s = [] then args else fillDefaults args, m)) := by
  rw [processCmdline]
  cases s with
  | nil =>
      rw [List.length_nil, Mem.bytes_succ, List.nil_append, List.cons.injEq] at h
      rw [if_pos h.1, words_nil]
      rfl
  | cons c s =>
      have hc : m cmdline ≠ 0 := by
        rw [List.length_cons, Mem.bytes_succ, List.cons_append, List.cons.injEq] at h
        rw [List.mem_cons, not_or] at hnul
        exact fun h0 => hnul.1 (h0.symm.trans h.1)
      rw [if_neg hc, processLoop_fold arch args h hnul hfuel]
      cases (words (c :: s)).foldlM (processWord arch) args <;> rfl

/-- A run that returns has processed the words. -/
theorem processCmdline_ok_iff {arch : Arch} {m m' : Mem} {cmdline fuel : ℕ} {s : List UInt8}
    {args args' : NtArgs} (h : m.bytes cmdline (s.length + 1) = s ++ [0]) (hnul : (0 : UInt8) ∉ s)
    (hfuel : s.length + 1 < fuel) :
    processCmdline arch fuel m args (some cmdline) = some (.ok (args', m')) ↔
      ∃ args₁, (words s).foldlM (processWord arch) args = .ok args₁ ∧
        (if s = [] then args₁ else fillDefaults args₁) = args' ∧ m = m' := by
  rw [processCmdline_eq arch h hnul hfuel args]
  cases (words s).foldlM (processWord arch) args with
  | error d => simp [Except.map]
  | ok args₁ => simp [Except.map]

/-- A string with a word is not empty. -/
theorem ne_nil_of_words {s w : List UInt8} {pre post : List (List UInt8)}
    (h : words s = pre ++ w :: post) : s ≠ [] := by
  rintro rfl
  rw [words_nil] at h
  exact absurd h.symm (by simp)

/-- The command line is processed as its words are, one after the other, and the defaults are
filled in behind them. -/
theorem processCmdline_refines (arch : Arch) {m : Mem} {cmdline fuel : ℕ} {s : List UInt8}
    (h : m.bytes cmdline (s.length + 1) = s ++ [0]) (hnul : (0 : UInt8) ∉ s)
    (hfuel : s.length + 1 < fuel) :
    processLoop arch fuel m cmdline .init =
        some (((words s).foldlM (processWord arch) .init).map fun args => (args, m)) ∧
      processCmdline arch fuel m .init (some cmdline) =
        some (((words s).foldlM (processWord arch) .init).map fun args =>
          (if s = [] then args else fillDefaults args, m)) :=
  ⟨processLoop_fold arch .init h hnul hfuel, processCmdline_eq arch h hnul hfuel .init⟩

/-- ` wim=/a  text`, with a space in front and two between the arguments. -/
theorem processCmdline_refines_wim :
    (Mem.ofList (str " wim=/a  text" ++ [0])).bytes 0 ((str " wim=/a  text").length + 1) =
        str " wim=/a  text" ++ [0] ∧
      processLoop .i386 20 (Mem.ofList (str " wim=/a  text" ++ [0])) 0 .init =
        some (((words (str " wim=/a  text")).foldlM (processWord .i386) .init).map fun args =>
          (args, Mem.ofList (str " wim=/a  text" ++ [0]))) :=
  have h : (Mem.ofList (str " wim=/a  text" ++ [0])).bytes 0 ((str " wim=/a  text").length + 1) =
      str " wim=/a  text" ++ [0] := by decide
  ⟨h, (processCmdline_refines .i386 h (by decide) (by decide)).1⟩

end Ntloader.Kern
