import Ntloader.Bcd.Exact
import Ntloader.Kern.Int13
import Ntloader.Kern.Payload
import Ntloader.Paging.Frame
import Ntloader.Paging.Low
import Ntloader.Pe.Image

/-!
# The initrd under the loaded program

The loader moves the initrd out of the way, registers its files, loads the boot manager and moves the
initrd above 4 GB if it can. The boot manager then runs without paging: it may write to memory that the
loader does not claim, and it calls interrupts, for which the loader enables paging.

* `bootRegions` — kern/main.c, the memory regions that are claimed.
* `loadInitrd`, `enterBootmgr` — kern/main.c, main, up to the jump to the PE image.
* `Entered.call` — kern/main.c, call_interrupt_wrapper, with paging.
* `Reaches` — how the loader gets at the initrd; `enterBootmgr_reaches` — it does.
* `Behaves`, `runGuest_kept` — a run that leaves the claimed memory alone leaves the initrd.
* `enterBootmgr_fileSystem` — so the emulated drive shows the packed files after every such run.

Scope: the loader's own memory, in which the page directories, the BCD and the table of virtual files
are, is apart from the memory that is modelled. `call_real` disables paging for the BIOS.
-/

namespace Ntloader.Kern

open Ntloader.Lib Ntloader.Lib.Mem
open Ntloader.Cpio Ntloader.Vdisk Ntloader.Paging Ntloader.Posix
open Ntloader.Pe (LoadedPe loadPe Destination fileAt imageBase imageEnd)

/-! ## The memory regions -/

/-- Calculate start page number.
Source: include/ntloader.h, page_start -/
def pageStart (address : ℕ) : ℕ := address / pageSize

/-- Calculate end page number.
Source: include/ntloader.h, page_end -/
def pageEnd (address : ℕ) : ℕ := (address + pageSize - 1) % 2 ^ 32 / pageSize

/-- Calculate page length.
Source: include/ntloader.h, page_len -/
def pageLen (start fin : ℕ) : ℕ := (pageEnd fin + 2 ^ 32 - pageStart start) % 2 ^ 32

/-- Memory region descriptor.
Source: include/bootapp.h, struct bootapp_memory_region -/
structure BootappMemoryRegion where
  /-- Start page address. -/
  startPage : ℕ
  /-- Number of pages. -/
  numPages : ℕ

/-- An address is in a region. -/
def BootappMemoryRegion.Covers (r : BootappMemoryRegion) (x : ℕ) : Prop :=
  r.startPage * pageSize ≤ x ∧ x < (r.startPage + r.numPages) * pageSize

/-- The region of the PE image.
Source: kern/main.c, PE_REGION -/
def peRegion : ℕ := 1

/-- Complete boot application descriptor set: the regions of the loader, of the PE image and of the
initrd.
Source: kern/main.c, main -/
def bootRegions (image : ℕ × ℕ) (pe : LoadedPe) (initrd len phys : ℕ) : List BootappMemoryRegion :=
  let regions : List BootappMemoryRegion :=
    [⟨pageStart image.1, pageLen image.1 image.2⟩,
     ⟨pageStart pe.base, pageLen pe.base ((pe.base + pe.len) % 2 ^ 32)⟩,
     ⟨phys / pageSize, pageLen initrd ((initrd + len) % 2 ^ 32)⟩]
  -- Omit initrd region descriptor if located above 4GB
  regions.take (if phys ≥ addr4gb then 2 else 3)

/-- The initrd is covered by its region, in front of the last page below 4 GB. -/
theorem bootRegions_initrd {image : ℕ × ℕ} {pe : LoadedPe} {initrd len i : ℕ}
    (hend : initrd + len + pageSize ≤ 2 ^ 32) (hi : i < len) :
    ∃ r, (bootRegions image pe initrd len initrd)[2]? = some r ∧ r.Covers (initrd + i) := by
  have hlow : ¬initrd ≥ addr4gb := by
    rw [addr4gb]
    rw [pageSize] at hend
    omega
  refine ⟨⟨initrd / pageSize, pageLen initrd ((initrd + len) % 2 ^ 32)⟩, ?_, ?_⟩
  · rw [bootRegions, if_neg hlow]
    rfl
  · simp only [BootappMemoryRegion.Covers, pageLen, pageEnd, pageStart, pageSize] at hend ⊢
    omega

/-! ## The loader -/

/-- The initrd once its files are registered and the emulated drive is there. -/
structure Initrd where
  /-- The files. -/
  payload : Payload
  /-- The patched BCD. -/
  bcd : Mem
  /-- The number of the emulated drive. -/
  drive : ℕ
  /-- Where the initrd is. -/
  initrd : ℕ
  /-- The page directory, and the memory. -/
  st : PagingState

/-- Initialise paging, relocate and extract the initrd, and add the INT 13 drive. `none` if the loader
dies or does not get there.
Source: kern/main.c, main -/
def loadInitrd (paging : Bool) (args : NtArgs) (bcd : Mem) (bcdLen fuel : ℕ)
    (replies : List Int15Reply) (initrd len : ℕ) (st : PagingState) : Option Initrd :=
  (if paging then initPaging st else some st).bind fun st =>
    -- Relocate initrd below 2GB if possible, to avoid collisions
    (relocateMemoryLow replies initrd len st.mem).bind fun moved =>
      (extractInitrd .i386 false fuel args bcd bcdLen moved.1 len moved.2).bind fun extracted =>
        extracted.toOption.map fun files =>
          let emulated := initialiseInt13 moved.2
          ⟨files.1, files.2, emulated.1, moved.1, { st with mem := emulated.2 }⟩

/-- What the loaded program is entered with. -/
structure Entered extends Initrd where
  /-- Paging is available. -/
  paging : Bool
  /-- The loaded image. -/
  pe : LoadedPe
  /-- Where the initrd is in physical memory. -/
  initrdPhys : ℕ
  /-- The memory regions. -/
  regions : List BootappMemoryRegion

/-- Load the boot manager, relocate the initrd above 4 GB, and complete the descriptors. `none` if the
loader dies or does not get there.
Source: kern/main.c, main -/
def enterBootmgr (paging : Bool) (image : ℕ × ℕ) (replies : List Int15Reply) (len : ℕ)
    (loaded : Initrd) : Option Entered :=
  -- Load bootmgr.exe into memory
  (loadPe loaded.st.mem loaded.payload.bootmgr loaded.payload.bootmgrLength).value.toOption.bind
    fun file =>
      -- Relocate initrd above 4GB if possible, to free up 32-bit memory
      (relocateMemoryHigh paging { loaded.st with mem := file.1 } replies loaded.initrd
        len).join.map fun moved =>
          { loaded with
            st := moved.2
            paging := paging
            pe := file.2
            initrdPhys := moved.1
            regions := bootRegions image file.2 loaded.initrd len moved.1 }

/-! ## The hook under paging -/

/-- The memory as the loader sees it between `enable_paging` and `disable_paging`.
Source: kern/paging.c, enable_paging -/
def Entered.seen (e : Entered) (m : Mem) : Mem := if e.paging then view e.st.pd m else m

/-- The memory behind `disable_paging`, if the loader has changed what it sees.
Source: kern/paging.c, disable_paging -/
def Entered.unseen (e : Entered) (m seen : Mem) : Mem :=
  if e.paging then unview e.st.pd m seen else seen

section Call

variable (e : Entered) (callInterrupt : Bios) (textmode : Bool)

/-- Wrap interrupt callback; `eflags` are the flags that `pushf` saves. A call for the emulated drive is
handled with paging enabled; for any other, the loader does not look at the memory but in real mode.
Source: kern/main.c, call_interrupt_wrapper -/
def Entered.call (eflags : UInt32) (params : BootappCallbackParams) (m : Mem) :
    Option (BootappCallbackParams × Mem) :=
  if params.interrupt = 0x13 ∧ params.edx.l.toNat = e.drive then
    (addMemFiles (e.payload.memFiles e.bcd (e.seen m))).bind fun t =>
      (callInterruptWrapper .i386 t e.drive eflags callInterrupt textmode params (e.seen m)).map
        fun s => (s.1, e.unseen m s.2)
  else
    (addMemFiles (e.payload.memFiles e.bcd m)).bind fun t =>
      callInterruptWrapper .i386 t e.drive eflags callInterrupt textmode params m

end Call

/-! ## What is written -/

/-- Fields that are set leave what is outside of them. -/
theorem setFields_of_not_mem {data x : ℕ} {fields : List (ℕ × ℕ × ℕ)} {m : Mem}
    (h : ∀ f ∈ fields, x < data + f.1 ∨ data + f.1 + f.2.1 ≤ x) : setFields data fields m x = m x := by
  induction fields generalizing m with
  | nil => rfl
  | cons f fields ih =>
      rw [setFields, List.foldl_cons, ← setFields,
        ih fun g hg => h g (List.mem_cons_of_mem f hg),
        putWord_of_not_mem _ (h f List.mem_cons_self)]

/-- A real-mode address is below 1 MB and 64 KB. -/
theorem realPtr_lt {segment offset : ℕ} (hsegment : segment < 2 ^ 16) (hoffset : offset < 2 ^ 16) :
    realPtr segment offset < 0x10fff0 := by
  rw [realPtr]
  omega

/-- A register has 16 bits. -/
theorem Reg.x_lt (r : Reg) : r.x < 2 ^ 16 := by
  have hl := r.l.toNat_lt
  have hh := r.h.toNat_lt
  rw [Reg.x]
  omega

/-- The sectors that an extended read asks for end in front of the last window that a sector number of
32 bits can have. -/
def ReadsInside (params : BootappCallbackParams) (m : Mem) : Prop :=
  let diskAddress := realPtr params.ds.toNat params.esi.x
  m.word (diskAddress + 8) 8 + (m (diskAddress + 2)).toNat < 511 * vdiskFileCount

section Written

variable {t : VdiskFiles} {vdiskDrive : ℕ} {eflags : UInt32} {callInterrupt : Bios}
  {textmode : Bool} {params : BootappCallbackParams} {m : Mem} {s : BootappCallbackParams × Mem}

/-- An extended read writes below 2 MB. -/
theorem int13ExtendedRead_high (ht : t.InMemory) (hinside : ReadsInside params m)
    (hs : int13ExtendedRead .i386 t params m = some s) {x : ℕ} (hx : pageSize2mb ≤ x) :
    s.2 x = m x := by
  rw [int13ExtendedRead] at hs
  obtain ⟨m', hread, rfl⟩ := Option.map_eq_some_iff.mp hs
  have hdata := @realPtr_lt (m.word (realPtr params.ds.toNat params.esi.x + 6) 2)
    (m.word (realPtr params.ds.toNat params.esi.x + 4) 2) (word_lt _ _ 2) (word_lt _ _ 2)
  have hcount := (m (realPtr params.ds.toNat params.esi.x + 2)).toNat_lt
  rw [ReadsInside] at hinside
  generalize realPtr (m.word _ 2) (m.word _ 2) = data at hdata hread
  generalize (m (realPtr params.ds.toNat params.esi.x + 2)).toNat = count at *
  generalize m.word (realPtr params.ds.toNat params.esi.x + 8) 8 = lba at *
  have hbytes : 512 * count < 2 ^ 32 := by omega
  have hout : x < data ∨ data + 512 * count ≤ x := by
    rw [pageSize2mb] at hx
    omega
  by_cases hlow : lba < vdiskFileCount
  · rw [vdiskRead_low ht.namesFit hlow hbytes] at hread
    obtain rfl := Option.some.inj hread
    exact copy_of_not_mem _ _ _ hout
  · rw [vdiskRead_high ht (not_lt.mp hlow) hbytes (hinside.trans (by decide)) (Or.inr hinside)] at hread
    obtain rfl := Option.some.inj hread
    exact copy_of_not_mem _ _ _ hout

/-- The drive parameters are written below 2 MB. -/
theorem int13GetExtendedParameters_high (hpointer : realPtr params.ds.toNat params.esi.x < 0x10fff0)
    (m : Mem) {x : ℕ} (hx : pageSize2mb ≤ x) : (int13GetExtendedParameters params m).2 x = m x := by
  have hfields : ∀ f ∈ diskParametersFields, f.1 + f.2.1 ≤ diskParametersSize := by decide
  rw [diskParametersSize] at hfields
  rw [pageSize2mb] at hx
  rw [int13GetExtendedParameters]
  dsimp only
  rw [setFields_of_not_mem fun f hf => ?_, fill_apply, if_neg (by rw [diskParametersSize]; omega)]
  have hend := hfields f hf
  omega

/-- A call for the emulated drive writes below 2 MB. -/
theorem emulated_high (ht : t.InMemory) (hemulated : Emulated vdiskDrive params)
    (hds : params.ds.toNat < 2 ^ 16)
    (hinside : params.eax.h = int13ExtendedReadCommand → ReadsInside params m)
    (hs : callInterruptWrapper .i386 t vdiskDrive eflags callInterrupt textmode params m = some s)
    {x : ℕ} (hx : pageSize2mb ≤ x) : s.2 x = m x := by
  have hpointer := realPtr_lt hds params.esi.x_lt
  rw [callInterruptWrapper, if_pos hemulated.1, emulateInt13, if_pos hemulated.2] at hs
  split_ifs at hs with h₁ h₂ h₃ h₄ h₅
  · obtain rfl := Option.some.inj hs
    rfl
  · obtain rfl := Option.some.inj hs
    rfl
  · obtain rfl := Option.some.inj hs
    rfl
  · obtain rfl := Option.some.inj hs
    exact int13GetExtendedParameters_high hpointer m hx
  · have hread : int13ExtendedRead .i386 t { params with eflags := eflags &&& ~~~CF } m = some s := hs
    have hpacket : ReadsInside { params with eflags := eflags &&& ~~~CF } m := hinside h₅
    exact int13ExtendedRead_high ht hpacket hread hx
  · obtain rfl := Option.some.inj hs
    rfl

/-- Any other call writes above 2 MB what the BIOS writes there. -/
theorem passed_high (hemulated : ¬Emulated vdiskDrive params) (hes : params.es.toNat < 2 ^ 16)
    (hs : callInterruptWrapper .i386 t vdiskDrive eflags callInterrupt textmode params m = some s)
    {x : ℕ} (hx : pageSize2mb ≤ x) : s.2 x = (callInterrupt params m).2 x := by
  have hpointer := realPtr_lt hes params.edi.x_lt
  rw [callInterruptWrapper] at hs
  split_ifs at hs with hint hvideo
  · rw [emulateInt13, if_neg fun hdrive => hemulated ⟨hint, hdrive⟩] at hs
    dsimp only at hs
    split_ifs at hs <;> obtain rfl := Option.some.inj hs <;> rfl
  · obtain rfl := Option.some.inj hs
    rw [pageSize2mb] at hx
    exact putWord_of_not_mem _ (by omega)
  · obtain rfl := Option.some.inj hs
    rfl

end Written


/-! ## How the initrd is kept -/

/-- The image of a well-formed file is written where it belongs, and nothing else is. -/
theorem loadPe_outside {m m' : Mem} {data len : ℕ} {pe : LoadedPe} (h : Destination m data len)
    (hload : (loadPe m data len).value = .ok (m', pe)) {x : ℕ}
    (hx : x < imageBase (fileAt m data) ∨
      imageBase (fileAt m data) + imageEnd (fileAt m data) + len ≤ x) : m' x = m x := by
  have hheaders := h.wellFormed.headers_le
  have hend := h.end_le
  have hheaderEnd := h.wellFormed.headerLen_le_imageEnd
  have hstart := Pe.loading_headers h
  have hheaderLen : (fileAt (Pe.headersLoaded m data) data).word
      (Pe.opthdrOffset (fileAt m data) + 60) 4 = Pe.headerLen (fileAt m data) := by
    have hopthdr := h.opthdrOffset_eq
    exact h.word_eq hstart.outside (by omega)
  have hnum : Pe.numSections (fileAt m data) - 0 < 2 ^ 16 := word_lt _ _ 2
  obtain ⟨m₁, hsections, hm₁⟩ := Pe.loadSections_value h hstart hnum (Nat.zero_le _)
  rw [Pe.loadPe_of_accepted (Pe.loadPe_ok_iff.mp ⟨_, hload⟩), Pe.loadImage_value, hheaderLen,
    Nat.mod_eq_of_lt (by omega)] at hload
  rw [Pe.memoryEnd, Nat.mul_zero, Nat.add_zero] at hsections
  rw [Traced.value_bind_of_ok hsections] at hload
  dsimp only at hload
  rw [Pe.loadCopy_value h hm₁] at hload
  obtain ⟨rfl, rfl⟩ := Prod.mk.inj (Except.ok.inj hload)
  rw [copy_of_not_mem _ _ _ (by omega)]
  exact hm₁.outside x (hx.imp_right (by omega))

/-- Data behind the copy window are kept by a relocation above 4 GB, and the first page still shows
what it did. -/
theorem relocateMemoryHigh_keeps {paging : Bool} {st : PagingState} {replies : List Int15Reply}
    {data len : ℕ} {r : Option (ℕ × PagingState)} (hpd : Identity st.pd)
    (hdata : data + len ≤ 2 ^ 32) (hlow : 2 * pageSize2mb ≤ data)
    (h : relocateMemoryHigh paging st replies data len = some r) :
    ∃ start st', r = some (start, st') ∧ (start = data ∨ 2 ^ 32 ≤ start) ∧
      st'.pd 0 / pageSize2mb = 0 ∧
      ∀ i < len, translate st'.pd (data + i) = start + i ∧ st'.mem (start + i) = st.mem (data + i) := by
  have hself : ∀ v < 2 ^ 32, st.pd (v / pageSize2mb) = pageEntry (pageSize2mb * (v / pageSize2mb)) := by
    intro v hv
    have hpage : v / pageSize2mb < 2048 := by
      rw [pageSize2mb]
      omega
    rw [hpd _ hpage, Nat.mul_comm]
  have hzero : st.pd 0 / pageSize2mb = 0 := by
    rw [hpd 0 (by decide), Nat.zero_mul]
    decide
  rcases relocateMemoryHigh_cases hdata h with ⟨-, hr⟩ | ⟨start, st', hdest, hr, hcopied⟩
  · exact ⟨data, st, hr, Or.inl rfl, hzero, fun i hi =>
      ⟨translate_identity (hself _ (by omega)), rfl⟩⟩
  obtain ⟨hge, hmod, -⟩ := destination_spec hdata hdest
  have hpages : ∀ p, HoldsData data len p → p ≠ 1 ∧ st.pd p = pageEntry (pageSize2mb * p) := by
    rintro p ⟨v, hv, hv', rfl⟩
    refine ⟨?_, hself v (by omega)⟩
    rw [pageSize2mb] at hlow ⊢
    omega
  have hfirst : ¬HoldsData data len 0 := by
    rintro ⟨v, hv, -, hpage⟩
    rw [pageSize2mb] at hlow hpage
    omega
  refine ⟨start, _, hr, Or.inr hge, ?_, fun i hi => ?_⟩
  · dsimp only
    rw [Function.update_of_ne (by decide), hcopied.pd_of_not_holdsData (by decide) hfirst, hzero]
  · have hholds : HoldsData data len ((data + i) / pageSize2mb) :=
      ⟨data + i, Nat.le_add_right _ _, by omega, rfl⟩
    have hne := (hpages _ hholds).1
    constructor
    · rw [@translate_copy data len _ start (data + i) (by omega) hmod hholds
        (by dsimp only; rw [Function.update_of_ne hne, hcopied.pd_of_holdsData hmod hne hholds])]
      omega
    · dsimp only
      rw [hcopied.mem_eq (by omega) hmod hpages, copy_of_mem _ _ _ (by omega) (by omega),
        Nat.add_sub_cancel_left]

/-! ## How the loader gets at the initrd -/

/-- What the loaded program has been told to leave alone: memory above 4 GB, which it does not address,
and the regions, but for that of its image. -/
def Entered.Reserved (e : Entered) (x : ℕ) : Prop :=
  addr4gb ≤ x ∨ ∃ i r, i ≠ peRegion ∧ e.regions[i]? = some r ∧ r.Covers x

/-- The initrd is seen where it was extracted, it is reserved, and below 2 MB the loader sees and
writes the physical memory. -/
structure Entered.Reaches (e : Entered) (len : ℕ) : Prop where
  initrd_eq : ∀ m, ∀ i < len, e.seen m (e.initrd + i) = m (e.initrdPhys + i)
  low_eq : ∀ m, ∀ v < pageSize2mb, e.seen m v = m v
  unseen_eq : ∀ m seen, (∀ v, pageSize2mb ≤ v → seen v = e.seen m v) →
    ∀ x, e.unseen m seen x = if x < pageSize2mb then seen x else m x
  reserved : ∀ i < len, e.Reserved (e.initrdPhys + i)
  le_phys : pageSize2mb ≤ e.initrdPhys

/-- Without paging, what is seen is the physical memory. -/
theorem Entered.reaches_flat {e : Entered} {len : ℕ} (hpaging : e.paging = false)
    (hphys : e.initrdPhys = e.initrd) (hreserved : ∀ i < len, e.Reserved (e.initrdPhys + i))
    (hle : pageSize2mb ≤ e.initrdPhys) : e.Reaches len where
  initrd_eq m i _ := by
    rw [Entered.seen, hpaging, hphys]
    rfl
  low_eq m v _ := by
    rw [Entered.seen, hpaging]
    rfl
  unseen_eq m seen hkept x := by
    have hkept' := hkept x
    rw [Entered.seen, hpaging] at hkept'
    rw [Entered.unseen, hpaging]
    by_cases hx : x < pageSize2mb
    · rw [if_pos hx]
      rfl
    · rw [if_neg hx]
      exact hkept' (not_lt.mp hx)
  reserved := hreserved
  le_phys := hle

/-- With paging, what is seen is what the pages are mapped to. -/
theorem Entered.reaches_paged {e : Entered} {len : ℕ} (hpaging : e.paging = true)
    (hzero : e.st.pd 0 / pageSize2mb = 0)
    (htranslate : ∀ i < len, translate e.st.pd (e.initrd + i) = e.initrdPhys + i)
    (hreserved : ∀ i < len, e.Reserved (e.initrdPhys + i)) (hle : pageSize2mb ≤ e.initrdPhys) :
    e.Reaches len where
  initrd_eq m i hi := by rw [Entered.seen, if_pos hpaging, view, htranslate i hi]
  low_eq m v hv := by rw [Entered.seen, if_pos hpaging, view_low hzero hv]
  unseen_eq m seen hkept x := by
    rw [Entered.unseen, if_pos hpaging, unview_eq hzero fun v hv _ => ?_]
    rw [hkept v hv, Entered.seen, if_pos hpaging]
  reserved := hreserved
  le_phys := hle

/-- **The loader gets at the initrd**, wherever it has been moved to, and it is what it was. -/
theorem enterBootmgr_reaches {paging : Bool} {image : ℕ × ℕ} {replies : List Int15Reply} {len : ℕ}
    {loaded : Initrd} {e : Entered} (hpd : paging = true → Identity loaded.st.pd)
    (hlow : 2 * pageSize2mb ≤ loaded.initrd) (hend : loaded.initrd + len + pageSize ≤ 2 ^ 32)
    (hpe : Destination loaded.st.mem loaded.payload.bootmgr loaded.payload.bootmgrLength)
    (hapart : loaded.initrd + len ≤ imageBase (fileAt loaded.st.mem loaded.payload.bootmgr) ∨
      imageBase (fileAt loaded.st.mem loaded.payload.bootmgr) +
        imageEnd (fileAt loaded.st.mem loaded.payload.bootmgr) + loaded.payload.bootmgrLength ≤
          loaded.initrd)
    (h : enterBootmgr paging image replies len loaded = some e) :
    e.Reaches len ∧ e.payload = loaded.payload ∧ e.bcd = loaded.bcd ∧ e.drive = loaded.drive ∧
      e.initrd = loaded.initrd ∧
      ∀ i < len, e.st.mem (e.initrdPhys + i) = loaded.st.mem (loaded.initrd + i) := by
  rw [enterBootmgr] at h
  obtain ⟨⟨m', pe⟩, hfile, h⟩ := Option.bind_eq_some_iff.mp h
  obtain ⟨⟨phys, st'⟩, hmoved, h⟩ := Option.map_eq_some_iff.mp h
  have hload := Bcd.toOption_eq_some_iff.mp hfile
  have hmoved := Option.join_eq_some_iff.mp hmoved
  have hkept : ∀ i < len, m' (loaded.initrd + i) = loaded.st.mem (loaded.initrd + i) := fun i hi =>
    loadPe_outside hpe hload (by omega)
  have hle : pageSize2mb ≤ loaded.initrd := by
    rw [pageSize2mb] at hlow ⊢
    omega
  have hdata : loaded.initrd + len ≤ 2 ^ 32 := by omega
  have hreserved : ∀ phys, (phys = loaded.initrd ∨ 2 ^ 32 ≤ phys) → ∀ i < len,
      addr4gb ≤ phys + i ∨ ∃ j r, j ≠ peRegion ∧
        (bootRegions image pe loaded.initrd len phys)[j]? = some r ∧ r.Covers (phys + i) := by
    rintro phys (rfl | hphys) i hi
    · obtain ⟨r, hr, hcovers⟩ := @bootRegions_initrd image pe loaded.initrd len i hend hi
      exact Or.inr ⟨2, r, by decide, hr, hcovers⟩
    · exact Or.inl (hphys.trans (Nat.le_add_right _ _))
  subst h
  cases paging with
  | false =>
      have hstay : some (some (loaded.initrd, { loaded.st with mem := m' })) = some (some (phys, st')) :=
        hmoved
      obtain ⟨rfl, rfl⟩ := Prod.mk.inj (Option.some.inj (Option.some.inj hstay))
      exact ⟨Entered.reaches_flat rfl rfl (hreserved _ (Or.inl rfl)) hle, rfl, rfl, rfl, rfl, hkept⟩
  | true =>
      obtain ⟨start, st₁, hr, hphys, hzero, hcopy⟩ := @relocateMemoryHigh_keeps true
        { loaded.st with mem := m' } _ _ _ _ (hpd rfl) hdata hlow hmoved
      obtain ⟨rfl, rfl⟩ := Prod.mk.inj (Option.some.inj hr)
      have hlephys : pageSize2mb ≤ phys := by
        rw [pageSize2mb] at hle ⊢
        omega
      exact ⟨Entered.reaches_paged rfl hzero (fun i hi => (hcopy i hi).1) (hreserved _ hphys) hlephys,
        rfl, rfl, rfl, rfl, fun i hi => (hcopy i hi).2.trans (hkept i hi)⟩

/-! ## Runs of the loaded program -/

/-- A call that the loaded program may make: its pointers are to real mode, the BIOS, if it is asked,
leaves the reserved memory alone, and the emulated drive is read inside. -/
structure Entered.Permits (e : Entered) (callInterrupt : Bios) (params : BootappCallbackParams)
    (m : Mem) : Prop where
  ds_lt : params.ds.toNat < 2 ^ 16
  es_lt : params.es.toNat < 2 ^ 16
  spares : ¬Emulated e.drive params → ∀ x, e.Reserved x → (callInterrupt params m).2 x = m x
  inside : Emulated e.drive params → params.eax.h = int13ExtendedReadCommand → ReadsInside params m

section Run

variable (e : Entered) (callInterrupt : Bios) (textmode : Bool)

/-- A run that leaves the reserved memory alone. -/
def Entered.Behaves : List GuestStep → Mem → Prop
  | [], _ => True
  | .write f :: steps, m => (∀ x, e.Reserved x → f m x = m x) ∧ Entered.Behaves steps (f m)
  | .interrupt eflags params :: steps, m => e.Permits callInterrupt params m ∧
      ∀ s, e.call callInterrupt textmode eflags params m = some s → Entered.Behaves steps s.2

end Run

section Kept

variable {e : Entered} {callInterrupt : Bios} {textmode : Bool} {len : ℕ}
  (h : e.Reaches len)
include h

/-- A packet below 2 MB is seen as it is. -/
theorem Entered.Reaches.readsInside {params : BootappCallbackParams} {m : Mem}
    (hds : params.ds.toNat < 2 ^ 16) (hinside : ReadsInside params m) :
    ReadsInside params (e.seen m) := by
  have hpointer := realPtr_lt hds params.esi.x_lt
  have hlow : ∀ v < realPtr params.ds.toNat params.esi.x + 16, e.seen m v = m v := fun v hv =>
    h.low_eq m v (by rw [pageSize2mb]; omega)
  rw [ReadsInside] at hinside ⊢
  rwa [word_congr fun i hi => hlow _ (by omega), hlow _ (by omega)]

/-- **A call leaves the initrd alone.** -/
theorem Entered.Reaches.call_kept {eflags : UInt32} {params : BootappCallbackParams} {m : Mem}
    {s : BootappCallbackParams × Mem} (hpermits : e.Permits callInterrupt params m)
    (hs : e.call callInterrupt textmode eflags params m = some s) {i : ℕ} (hi : i < len) :
    s.2 (e.initrdPhys + i) = m (e.initrdPhys + i) := by
  have hphys := h.le_phys
  have hlength (m : Mem) : (e.payload.memFiles e.bcd m).length ≤ vdiskMaxFiles :=
    (List.length_map _).trans_le e.payload.length_le
  rw [Entered.call] at hs
  split_ifs at hs with hemulated
  · obtain ⟨t, ht, hs⟩ := Option.bind_eq_some_iff.mp hs
    obtain ⟨s', hs', rfl⟩ := Option.map_eq_some_iff.mp hs
    have hhigh : ∀ v, pageSize2mb ≤ v → s'.2 v = e.seen m v := fun v hv =>
      emulated_high (addMemFiles_inMemory (hlength _) ht) hemulated hpermits.ds_lt
        (fun hc => h.readsInside hpermits.ds_lt (hpermits.inside hemulated hc)) hs' hv
    dsimp only
    rw [h.unseen_eq m s'.2 hhigh, if_neg (by omega)]
  · obtain ⟨t, ht, hs⟩ := Option.bind_eq_some_iff.mp hs
    rw [passed_high hemulated hpermits.es_lt hs (hphys.trans (Nat.le_add_right _ _))]
    exact hpermits.spares hemulated _ (h.reserved i hi)

/-- **A run leaves the initrd alone.** -/
theorem Entered.Reaches.runGuest_kept {steps : List GuestStep} {m m' : Mem}
    {trace : List (BootappCallbackParams × BootappCallbackParams)}
    (hbehaves : e.Behaves callInterrupt textmode steps m)
    (hrun : runGuest (e.call callInterrupt textmode) steps m = some (trace, m')) :
    ∀ i < len, m' (e.initrdPhys + i) = m (e.initrdPhys + i) := by
  induction steps generalizing m trace with
  | nil =>
      cases hrun
      exact fun _ _ => rfl
  | cons step steps ih =>
      intro i hi
      cases step with
      | write f =>
          exact (ih hbehaves.2 hrun i hi).trans (hbehaves.1 _ (h.reserved i hi))
      | interrupt eflags params =>
          rw [runGuest] at hrun
          obtain ⟨s, hs, hrun⟩ := Option.bind_eq_some_iff.mp hrun
          obtain ⟨⟨rest, m₁⟩, hrest, hmap⟩ := Option.map_eq_some_iff.mp hrun
          obtain ⟨-, rfl⟩ := Prod.mk.inj hmap
          exact (ih (hbehaves.2 s hs) hrest i hi).trans (h.call_kept hbehaves.1 hs hi)

end Kept

/-! ## The emulated drive -/

section Serves

variable {e : Entered} {callInterrupt : Bios} {textmode : Bool}
  {files : List InFile} {extra : List UInt8} {bcdLen : ℕ}

/-- What is registered shows the packed files, wherever the archive is seen. -/
def Initrd.Shows (loaded : Initrd) (bcdLen : ℕ) (files : List InFile) (extra : List UInt8) : Prop :=
  ∀ bcd m, Packed .i386 m loaded.initrd files extra →
    (loaded.payload.memFiles bcd m).map MemFile.shown =
      (bcdFile bcd bcdLen :: files.map packedFile).map MemFile.shown

/-- The archive is in physical memory. -/
def Entered.Kept (e : Entered) (files : List InFile) (extra : List UInt8) (m : Mem) : Prop :=
  ∀ i < (mkinitrd files ++ extra).length,
    m (e.initrdPhys + i) = (mkinitrd files ++ extra).getD i 0

variable (h : e.Reaches (mkinitrd files ++ extra).length)
include h

/-- So it is seen. -/
theorem Entered.Reaches.packed (hend : e.initrd + (mkinitrd files ++ extra).length < 2 ^ 32) {m : Mem}
    (hkept : e.Kept files extra m) :
    Packed .i386 (e.seen m) e.initrd files extra :=
  ⟨bytes_eq_iff.mpr fun i hi => (h.initrd_eq m i hi).trans (hkept i hi), hend⟩

/-- A packet that a reader stores is in front of the archive. -/
theorem Entered.Reaches.kept_packet {m : Mem} (hkept : e.Kept files extra m) {r : Int13Reader}
    (hds : r.params.ds.toNat < 2 ^ 16) {bs : List UInt8} (hbs : bs.length = 16) :
    e.Kept files extra (m.store r.packet bs) := by
  intro i hi
  have hpacket := realPtr_lt hds r.params.esi.x_lt
  have hphys := h.le_phys
  rw [pageSize2mb] at hphys
  rw [store_of_not_mem m (Or.inr (by rw [hbs, Int13Reader.packet]; omega))]
  exact hkept i hi

/-- And it is seen as it is. -/
theorem Entered.Reaches.requests_seen {m : Mem} {r : Int13Reader} (hds : r.params.ds.toNat < 2 ^ 16)
    {lba count : ℕ} (hrequests : r.Requests lba count m) : r.Requests lba count (e.seen m) := by
  have hpacket := realPtr_lt hds r.params.esi.x_lt
  have hlow : ∀ v < r.packet + 16, e.seen m v = m v := fun v hv =>
    h.low_eq m v (by rw [Int13Reader.packet] at hv; rw [pageSize2mb]; omega)
  have hword : ∀ o n, o + n ≤ 16 → (e.seen m).word (r.packet + o) n = m.word (r.packet + o) n :=
    fun o n hon => word_congr fun i hi => hlow _ (by omega)
  rw [Int13Reader.Requests, hlow _ (by omega), hword 4 2 (by omega), hword 6 2 (by omega),
    hword 8 8 (by omega)]
  exact hrequests

/-- **The emulated drive serves the packed files**, as long as the archive is kept. -/
theorem Entered.Reaches.serves (hend : e.initrd + (mkinitrd files ++ extra).length < 2 ^ 32)
    (hshows : e.toInitrd.Shows bcdLen files extra) (hdrive : e.drive < 256) {m : Mem}
    (hkept : e.Kept files extra m) {r : Int13Reader} (hds : r.params.ds.toNat < 2 ^ 16) :
    ∃ t, addMemFiles (e.payload.memFiles e.bcd (e.seen m)) = some t ∧
      Serves .i386 t 0 (int13Device (e.call callInterrupt textmode) r e.drive m) := by
  have hlength (m : Mem) : (e.payload.memFiles e.bcd m).length ≤ vdiskMaxFiles :=
    (List.length_map _).trans_le e.payload.length_le
  obtain ⟨t, ht, -⟩ := addMemFiles_eq (hlength (e.seen m))
  refine ⟨t, ht, fun lba count hcount hlast hcross => ?_⟩
  rw [Nat.zero_add] at hlast hcross
  have hbytes : 512 * count < 2 ^ 32 := lt_of_le_of_lt (Nat.mul_le_mul_left 512 hcount) (by decide)
  have hlba : lba < 256 ^ 8 := by
    simp only [vdiskFileCount] at hlast
    omega
  have hrequests := r.requests_store m hlba (lt_of_le_of_lt hcount (by decide))
  have hkept₁ := h.kept_packet hkept hds
    (show (diskAddressPacket lba count r.segment.toNat r.offset.toNat).length = 16 by
      simp [diskAddressPacket])
  obtain ⟨m₁, hm₁⟩ : ∃ m₁, m.store r.packet
      (diskAddressPacket lba count r.segment.toNat r.offset.toNat) = m₁ := ⟨_, rfl⟩
  rw [hm₁] at hrequests hkept₁
  -- The files show what they showed in front of the call.
  obtain ⟨t₁, ht₁, -⟩ := addMemFiles_eq (hlength (e.seen m₁))
  have himage : image .i386 t₁ = image .i386 t :=
    Payload.image_congr ht₁ ht ((hshows e.bcd _ (h.packed hend hkept₁)).trans
      (hshows e.bcd _ (h.packed hend hkept)).symm) .i386
  have hread := @vdiskRead_eq .i386 t₁ lba count (addMemFiles_inMemory (hlength _) ht₁) hbytes
    (hlast.trans (by decide)) (Or.inr hlast) hcross r.data (e.seen m₁)
  rw [himage] at hread
  have hcall : e.call callInterrupt textmode (r.eflags lba) (r.request e.drive) m₁ =
      some ({ r.request e.drive with
        eflags := r.eflags lba &&& ~~~CF
        eax := { (r.request e.drive).eax with h := 0 } },
        e.unseen m₁ ((e.seen m₁).copy r.data (image .i386 t) (512 * lba) (512 * count))) := by
    rw [Entered.call, if_pos ⟨rfl, Nat.mod_eq_of_lt hdrive⟩, ht₁, Option.bind_some,
      callInterruptWrapper_request hdrive (h.requests_seen hds hrequests) hread, Option.map_some]
  have hdata := realPtr_lt r.segment.toNat_lt r.offset.toNat_lt
  have hbuffer : r.data + 512 * count ≤ pageSize2mb := by
    simp only [vdiskClusterCount] at hcount
    rw [Int13Reader.data, pageSize2mb]
    omega
  rw [Device.Holds, imageFrom_bytes, int13Device, hm₁, hcall, Option.bind_some,
    if_pos ⟨clear_CF _, rfl⟩, Nat.mul_zero, Nat.zero_add]
  congr 1
  refine bytes_congr fun i hi => ?_
  dsimp only
  rw [h.unseen_eq m₁ _ fun v hv => copy_of_not_mem _ _ _ (by omega), if_pos (by omega),
    copy_of_mem _ _ _ (by omega) (by omega), Nat.add_sub_cancel_left]

end Serves

/-- What the loader has behind the extraction of an archive. -/
theorem loadInitrd_some {paging : Bool} {args : NtArgs} {bcd : Mem} {bcdLen fuel : ℕ}
    {replies : List Int15Reply} {files : List InFile} {extra : List UInt8}
    (hfits : ∀ f ∈ files, f.Fits) (hfuel : files.length < fuel) {initrd : ℕ} {st : PagingState}
    (hpacked : Packed .i386 st.mem initrd files extra)
    (hend : initrd + (mkinitrd files ++ extra).length + pageSize ≤ 2 ^ 32) {loaded : Initrd}
    (h : loadInitrd paging args bcd bcdLen fuel replies initrd (mkinitrd files ++ extra).length st =
      some loaded) :
    (paging = true → Identity loaded.st.pd) ∧ loaded.drive < 256 ∧
      loaded.initrd + (mkinitrd files ++ extra).length + pageSize ≤ 2 ^ 32 ∧
      loaded.Shows bcdLen files extra ∧
      (2 * pageSize2mb ≤ loaded.initrd → ∀ i < (mkinitrd files ++ extra).length,
        loaded.st.mem (loaded.initrd + i) = (mkinitrd files ++ extra).getD i 0) := by
  rw [loadInitrd] at h
  obtain ⟨st₁, hst₁, h⟩ := Option.bind_eq_some_iff.mp h
  obtain ⟨⟨start, m⟩, hmoved, h⟩ := Option.bind_eq_some_iff.mp h
  obtain ⟨extracted, hextracted, h⟩ := Option.bind_eq_some_iff.mp h
  obtain ⟨⟨p, bcd₁⟩, hok, rfl⟩ := Option.map_eq_some_iff.mp h
  have hpd : st₁.mem = st.mem ∧ (paging = true → Identity st₁.pd) := by
    cases paging with
    | false =>
        obtain rfl := Option.some.inj hst₁
        exact ⟨rfl, fun hp => absurd hp (by decide)⟩
    | true =>
        obtain ⟨st₂, hst₂, hidentity, hmem⟩ := initPaging_identity st
        obtain rfl : st₂ = st₁ := Option.some.inj (hst₂.symm.trans hst₁)
        exact ⟨hmem, fun _ => hidentity⟩
  rw [hpd.1] at hmoved
  have hdata : initrd + (mkinitrd files ++ extra).length ≤ 2 ^ 32 := by omega
  obtain ⟨hbytes, hplace⟩ := relocateMemoryLow_bytes hdata hmoved
  rw [hpacked.1] at hbytes
  have hstart : start + (mkinitrd files ++ extra).length + pageSize ≤ 2 ^ 32 := by
    rcases hplace with rfl | h2gb
    · exact hend
    · rw [addr2gb] at h2gb
      rw [pageSize]
      omega
  have hpacked₁ : Packed .i386 m start files extra := by
    refine ⟨hbytes, ?_⟩
    have hulong : Arch.i386.ulong = 2 ^ 32 := rfl
    rw [pageSize] at hstart
    omega
  obtain rfl := Bcd.toOption_eq_some_iff.mp hok
  have hroom : files.length < vdiskMaxFiles := by
    by_contra hmany
    rw [extractInitrd_tooMany hfits hpacked₁ hfuel (by omega)] at hextracted
    cases Option.some.inj hextracted
  obtain ⟨q, hshown, -, hresult⟩ := @extractInitrd_eq .i386 false args bcd bcdLen _ _ hfits _ _
    hpacked₁ _ hfuel hroom
  rw [hextracted] at hresult
  have hq : p = q := by
    split_ifs at hresult with hnull
    · cases hresult
    · obtain ⟨patched, -, hmap⟩ := Option.map_eq_some_iff.mp hresult.symm
      cases patched with
      | error err => cases hmap
      | ok bcd₂ => exact (Prod.mk.inj (Except.ok.inj hmap)).1.symm
  subst hq
  refine ⟨hpd.2, (initialiseInt13_bounds m).2, hstart, hshown, fun hlow i hi => ?_⟩
  dsimp only at hlow ⊢
  have hcount : int13DriveCount = 0x475 := by decide
  rw [initialiseInt13, hcount]
  dsimp only
  rw [store_of_not_mem m (Or.inr (by rw [List.length_singleton]; rw [pageSize2mb] at hlow; omega))]
  exact bytes_eq_iff.mp hbytes i hi

/-! ## An executable in an initrd -/

/-- An initrd whose boot manager is an executable. -/
def peInitrd : List InFile :=
  [⟨str "bootmgr.exe", 0o100644, (Pe.sampleFile 0x400000).bytes 0x100000 0xc0⟩]

/-- The archive at 16 MB. -/
def peMem : Mem := Mem.zero.store 0x1000000 (mkinitrd peInitrd ++ [])

/-- A BIOS that has no memory map. -/
def noRam : Int15Reply := ⟨0, 0, 0, true, ⟨0, 0, 0, 0⟩⟩

/-- The archive has 440 bytes, -/
theorem peInitrd_length : (mkinitrd peInitrd ++ []).length = 440 := by
  decide +kernel

/-- its file fits, -/
theorem peInitrd_fits : ∀ f ∈ peInitrd, f.Fits := by
  intro f hf
  obtain rfl := List.mem_singleton.mp hf
  exact ⟨by decide +kernel, by decide +kernel, by decide +kernel, by decide +kernel⟩

/-- and it is in memory. -/
theorem peInitrd_packed : Packed .i386 peMem 0x1000000 peInitrd [] := by
  refine ⟨bytes_store_self _ _ _, ?_⟩
  rw [peInitrd_length]
  decide

/-- The executable is the only place with an `M`. -/
theorem peMem_eq_m {x : ℕ} (h : peMem x = 0x4d) : x = 0x100007c := by
  have hlength := peInitrd_length
  have hall : ∀ p ∈ (mkinitrd peInitrd ++ []).zipIdx, p.1 = 0x4d → p.2 = 0x7c := by decide +kernel
  rw [peMem, store_apply, hlength] at h
  split_ifs at h with hx
  · obtain ⟨b, hb⟩ : ∃ b, (mkinitrd peInitrd ++ [])[x - 0x1000000]? = some b :=
      ⟨_, List.getElem?_eq_getElem (by omega)⟩
    rw [List.getD_eq_getElem?_getD, hb] at h
    have heq : x - 0x1000000 = 0x7c := hall (b, _) (List.mem_zipIdx_iff_getElem?.mpr hb) h
    omega
  · cases h

/-- What is in memory at the executable, behind the count of the drives. -/
theorem peMem_fields :
    let file := fileAt (initialiseInt13 peMem).2 0x100007c
    Pe.Accepted file 0xc0 ∧ Pe.pehdrOffset file = 0x40 ∧ Pe.opthdrLen file = 64 ∧
      Pe.numSections file = 1 ∧ imageBase file = 0x400000 ∧ Pe.sectionAlign file = 2 ^ 12 ∧
      Pe.headerLen file = 2 ∧ Pe.section_ file 0 = ⟨1, 0x1000, 1, 0⟩ := by
  unfold Pe.Accepted
  decide +kernel

/-- The boot manager in it can be loaded. -/
theorem peMem_destination : Destination (initialiseInt13 peMem).2 0x100007c 0xc0 := by
  obtain ⟨-, hpehdr, hopthdr, hnum, hbase, halign, hheader, hsection⟩ := peMem_fields
  have hend := Pe.imageEnd_of_oneSection hnum halign hsection
  have hwell := Pe.wellFormed_of_oneSection hpehdr hopthdr hnum halign hheader hsection
  refine ⟨⟨by decide, hwell, fun j hj => ?_⟩, ?_⟩
  · rw [hend] at hj
    rw [hbase]
    omega
  · rw [hend, hbase]
    decide

/-- The loader extracts that initrd, and patches the small store. -/
theorem extractInitrd_peInitrd :
    ∃ (p : Payload) (bcd : Mem), p.bootmgr = 0x100007c ∧ p.bootmgrLength = 0xc0 ∧
      extractInitrd .i386 false 8 .init Bcd.smallStore 0x2000 0x1000000
        (mkinitrd peInitrd ++ []).length peMem = some (.ok (p, bcd)) := by
  obtain ⟨bcd, hpatched⟩ := Bcd.patchElements_smallStore
  obtain ⟨p, -, hbootmgr, hresult⟩ := @extractInitrd_eq .i386 false .init Bcd.smallStore 0x2000 _ _
    peInitrd_fits _ _ peInitrd_packed 8 (by decide) (by decide)
  have hfound : bootmgrOf (bootmgrName .i386 false) peInitrd =
      some ⟨str "bootmgr.exe", 0o100644, (Pe.sampleFile 0x400000).bytes 0x100000 0xc0⟩ := by
    rw [bootmgrOf, peInitrd, List.reverse_singleton, List.find?_singleton, if_pos (by decide +kernel)]
  rw [hfound] at hbootmgr
  obtain ⟨hne, hbytes⟩ := hbootmgr
  have hlen : p.bootmgrLength = 0xc0 := by
    have hlength := congrArg List.length hbytes
    rwa [bytes_length, bytes_length] at hlength
  have hfirst : peMem p.bootmgr = 0x4d := by
    rw [hlen] at hbytes
    have h := congrArg (fun bs : List UInt8 => bs.getD 0 0) hbytes
    rw [bytes_getD (by decide), Nat.add_zero] at h
    rw [h]
    decide +kernel
  refine ⟨p, Bcd.patchSuffix false bcd 0 0x2000, peMem_eq_m hfirst, hlen, ?_⟩
  rw [hresult, if_neg hne, Bcd.bcdPatchData, hpatched]
  rfl

/-- The loader has the initrd at 16 MB, with paging. -/
theorem loadInitrd_peInitrd :
    ∃ (p : Payload) (bcd : Mem) (pd : ℕ → ℕ), p.bootmgr = 0x100007c ∧ p.bootmgrLength = 0xc0 ∧
      loadInitrd true .init Bcd.smallStore 0x2000 8 [noRam] 0x1000000
          (mkinitrd peInitrd ++ []).length ⟨fun _ => 0, peMem⟩ =
        some ⟨p, bcd, (initialiseInt13 peMem).1, 0x1000000, ⟨pd, (initialiseInt13 peMem).2⟩⟩ := by
  obtain ⟨p, bcd, hbootmgr, hlen, hextract⟩ := extractInitrd_peInitrd
  obtain ⟨st, hst, -, hmem⟩ := initPaging_identity ⟨fun _ => 0, peMem⟩
  have hmoved : relocateMemoryLow [noRam] 0x1000000 (mkinitrd peInitrd ++ []).length peMem =
      some (0x1000000, peMem) := rfl
  refine ⟨p, bcd, st.pd, hbootmgr, hlen, ?_⟩
  rw [loadInitrd, if_pos rfl, hst, Option.bind_some, hmem, hmoved, Option.bind_some, hextract]
  rfl

/-- The boot manager is loaded, and the initrd stays where it is. -/
theorem enterBootmgr_peInitrd {p : Payload} (bcd : Mem) (pd : ℕ → ℕ) (drive : ℕ)
    (hbootmgr : p.bootmgr = 0x100007c) (hlen : p.bootmgrLength = 0xc0) :
    ∃ e pe, enterBootmgr true (0x10000, 0x20000) [noRam] (mkinitrd peInitrd ++ []).length
        ⟨p, bcd, drive, 0x1000000, ⟨pd, (initialiseInt13 peMem).2⟩⟩ = some e ∧
      e.regions = bootRegions (0x10000, 0x20000) pe 0x1000000 440 0x1000000 := by
  obtain ⟨⟨m, pe⟩, hpe⟩ := Pe.loadPe_ok_iff.mpr peMem_fields.1
  have hmoved : relocateMemoryHigh true ⟨pd, m⟩ [noRam] 0x1000000 (mkinitrd peInitrd ++ []).length =
      some (some (0x1000000, ⟨pd, m⟩)) := rfl
  refine ⟨⟨⟨p, bcd, drive, 0x1000000, ⟨pd, m⟩⟩, true, pe, 0x1000000,
    bootRegions (0x10000, 0x20000) pe 0x1000000 440 0x1000000⟩, pe, ?_, rfl⟩
  rw [enterBootmgr]
  dsimp only
  rw [hbootmgr, hlen, hpe, ← peInitrd_length]
  dsimp only [Except.toOption, Option.bind_some]
  rw [hmoved]
  rfl

/-- What is reserved then is behind the first 64 KB. -/
theorem reserved_peInitrd {e : Entered} {pe : LoadedPe}
    (hregions : e.regions = bootRegions (0x10000, 0x20000) pe 0x1000000 440 0x1000000) {x : ℕ}
    (hx : e.Reserved x) : 0x10000 ≤ x := by
  rcases hx with hx | ⟨i, r, hi, hr, hlow, -⟩
  · exact (by decide : 0x10000 ≤ addr4gb).trans hx
  · rw [hregions] at hr
    match i, hi, hr with
    | 0, _, hr =>
        obtain rfl := Option.some.inj hr
        exact hlow
    | 2, _, hr =>
        obtain rfl := Option.some.inj hr
        exact (by decide : 0x10000 ≤ 0x1000000 / pageSize * pageSize).trans hlow
    | i + 3, _, hr => cases hr

/-! ## The file system -/

/-- **The initrd under the loaded program.** The loader is given an archive of `mkinitrd` and moves it
to at least 4 MB, and loads a well-formed boot manager apart from it. In every run of what is loaded, as
long as that leaves alone what it has been told is claimed, and the memory above 4 GB, a FAT32 driver
that reads the emulated drive finds at every path what the tree of the BCD and the packed files has
there: whether there is paging or not, and wherever the archive has been moved.
Source: kern/main.c, main, call_interrupt_wrapper -/
theorem enterBootmgr_fileSystem {paging : Bool} {args : NtArgs} {bcd : Mem} {bcdLen fuel : ℕ}
    (hbcd : bcdLen < 2 ^ 32) {low high : List Int15Reply} {files : List InFile}
    {extra : List UInt8} (hfits : ∀ f ∈ files, f.Fits) (hfuel : files.length < fuel) {initrd : ℕ}
    {st : PagingState} (hpacked : Packed .i386 st.mem initrd files extra)
    (hend : initrd + (mkinitrd files ++ extra).length + pageSize ≤ 2 ^ 32) {loaded : Initrd}
    (hloaded : loadInitrd paging args bcd bcdLen fuel low initrd (mkinitrd files ++ extra).length st =
      some loaded)
    (hlow : 2 * pageSize2mb ≤ loaded.initrd)
    (hpe : Destination loaded.st.mem loaded.payload.bootmgr loaded.payload.bootmgrLength)
    (hapart : loaded.initrd + (mkinitrd files ++ extra).length ≤
        imageBase (fileAt loaded.st.mem loaded.payload.bootmgr) ∨
      imageBase (fileAt loaded.st.mem loaded.payload.bootmgr) +
        imageEnd (fileAt loaded.st.mem loaded.payload.bootmgr) + loaded.payload.bootmgrLength ≤
          loaded.initrd)
    {image : ℕ × ℕ} {e : Entered}
    (hentered : enterBootmgr paging image high (mkinitrd files ++ extra).length loaded = some e)
    {callInterrupt : Bios} {textmode : Bool} {steps : List GuestStep} {m : Mem}
    {trace : List (BootappCallbackParams × BootappCallbackParams)}
    (hbehaves : e.Behaves callInterrupt textmode steps e.st.mem)
    (hrun : runGuest (e.call callInterrupt textmode) steps e.st.mem = some (trace, m))
    {r : Int13Reader} (hds : r.params.ds.toNat < 2 ^ 16) :
    let dev := int13Device (e.call callInterrupt textmode) r e.drive m
    let tree := bcdFile e.bcd bcdLen :: files.map packedFile
    ∃ v, Fat.mount dev = some v ∧ ∀ path,
      readPath v dev path = (Node.resolve tree path).bind (Node.contents tree) ∧
        listPath v dev path = (Node.resolve tree path).bind (Node.listing tree) := by
  obtain ⟨hpd, hdrive, hend₁, hshows, hcontents⟩ := loadInitrd_some hfits hfuel hpacked hend hloaded
  obtain ⟨hreaches, hpayload, -, hdriveEq, hinitrd, hmem⟩ :=
    enterBootmgr_reaches hpd hlow hend₁ hpe hapart hentered
  have hshows₁ : e.toInitrd.Shows bcdLen files extra := by
    rw [Initrd.Shows, hpayload, hinitrd]
    exact hshows
  have hend₂ : e.initrd + (mkinitrd files ++ extra).length < 2 ^ 32 := by
    rw [hinitrd]
    rw [pageSize] at hend₁
    omega
  have hkept : e.Kept files extra m := fun i hi =>
    (hreaches.runGuest_kept hbehaves hrun i hi).trans ((hmem i hi).trans (hcontents hlow i hi))
  obtain ⟨t, ht, hserves⟩ := hreaches.serves hend₂ hshows₁ (hdriveEq ▸ hdrive) hkept hds
  have hlength : (e.payload.memFiles e.bcd (e.seen m)).length ≤ vdiskMaxFiles :=
    (List.length_map _).trans_le e.payload.length_le
  exact ⟨vdiskVolume 0, hserves.mount rfl,
    readPath_of_shown (hshows₁ e.bcd _ (hreaches.packed hend₂ hkept)) hlength
      (packedFiles_lt hbcd hfits e.bcd) ht hserves (Nat.zero_le _)⟩

/-- The boot manager is loaded, and writes one byte. -/
theorem enterBootmgr_fileSystem_peInitrd :
    ∃ loaded e, loadInitrd true .init Bcd.smallStore 0x2000 8 [noRam] 0x1000000
        (mkinitrd peInitrd ++ []).length ⟨fun _ => 0, peMem⟩ = some loaded ∧
      enterBootmgr true (0x10000, 0x20000) [noRam] (mkinitrd peInitrd ++ []).length loaded = some e ∧
      let m := e.st.mem.store 0x500 [1]
      let dev := int13Device (e.call (fun params m => (params, m)) false) zeroReader e.drive m
      let tree := bcdFile e.bcd 0x2000 :: peInitrd.map packedFile
      ∃ v, Fat.mount dev = some v ∧ ∀ path,
        readPath v dev path = (Node.resolve tree path).bind (Node.contents tree) ∧
          listPath v dev path = (Node.resolve tree path).bind (Node.listing tree) := by
  obtain ⟨p, bcd, pd, hbootmgr, hlen, hloaded⟩ := loadInitrd_peInitrd
  obtain ⟨e, pe, hentered, hregions⟩ :=
    enterBootmgr_peInitrd bcd pd (initialiseInt13 peMem).1 hbootmgr hlen
  obtain ⟨-, -, -, hnum, hbase, halign, -, hsection⟩ := peMem_fields
  have hend := Pe.imageEnd_of_oneSection hnum halign hsection
  have hwrite : ∀ x, e.Reserved x → e.st.mem.store 0x500 [1] x = e.st.mem x := by
    intro x hx
    have hhigh := reserved_peInitrd hregions hx
    rw [store_of_not_mem _ (Or.inr (by rw [List.length_singleton]; omega))]
  have hbehaves : e.Behaves (fun params m => (params, m)) false
      [.write fun m => m.store 0x500 [1]] e.st.mem := ⟨hwrite, trivial⟩
  have hpacked : Packed .i386 (PagingState.mk (fun _ => 0) peMem).mem 0x1000000 peInitrd [] :=
    peInitrd_packed
  refine ⟨_, e, hloaded, hentered, ?_⟩
  exact enterBootmgr_fileSystem (by decide) peInitrd_fits (by decide) hpacked
    (by rw [peInitrd_length]; decide) hloaded (by rw [pageSize2mb]; norm_num)
    (by dsimp only; rw [hbootmgr, hlen]; exact peMem_destination)
    (by dsimp only; rw [hbootmgr, hlen, hbase, hend]; right; decide) hentered hbehaves rfl
    (r := zeroReader) (by decide)

end Ntloader.Kern
