import Nachos.Userprog.Isolation
import Nachos.Userprog.Loader

/-!
# Where the loader reads to

The calls of `ReadAt` that `AddrSpace::AddrSpace` makes for a header, whatever its fields are, and
when they stay inside of the pages of the new address space.

* `loadSegment_eq_reads` — the loader makes these calls, in this order.
* `loader_stays_iff` — when every index is in the page table, every byte is in a frame of the
  address space, and there is room for the stack.
-/

set_option autoImplicit false

namespace Nachos

namespace AddrSpace

/-- A `ReadAt` into page `index` of the page table, from `offset` on. -/
structure Read where
  index : Nat
  offset : Int
  numBytes : Word
  position : Word

/-- The calls for one segment. -/
def reads (seg : Segment) : List Read :=
  if 0 < seg.size.toInt then
    let firstPage := seg.virtualAddr.sdiv 128
    let tempPageSize := 128 - seg.virtualAddr.srem 128
    let cut := tempPageSize.slt seg.size
    let firstPageSize := if cut then tempPageSize else seg.size
    let lastPage := if cut then (seg.virtualAddr + seg.size).sdiv 128 else firstPage + 1
    let lastPageSize := if cut then (seg.virtualAddr + seg.size).srem 128 else 0
    ⟨firstPage.toNat, PageSize - tempPageSize.toInt, firstPageSize, seg.inFileAddr⟩ ::
      ((if lastPageSize ≠ 0 then
        [⟨lastPage.toNat, 0, lastPageSize, seg.inFileAddr + firstPageSize + (lastPage - firstPage - 1) * 128⟩]
      else []) ++
      (List.range' (firstPage + 1).toNat (lastPage.toNat - (firstPage + 1).toNat)).map fun i =>
        ⟨i, 0, 128, seg.inFileAddr + firstPageSize + (BitVec.ofNat 32 i - firstPage - 1) * 128⟩)
  else []

/-- One call; `none` if the index is outside of the page table. -/
def readInto (file : List Byte) (pageTable : List TranslationEntry) (mem : Memory) (r : Read) : Option Memory :=
  pageTable[r.index]?.map fun e =>
    Bytes.blit mem (e.physicalPage * PageSize + r.offset) (readAt file r.numBytes r.position)

variable {file : List Byte} {pageTable : List TranslationEntry}

theorem loadPages_eq_reads (inFileAddr firstPage firstPageSize : Word) (i n : Nat) (mem : Memory) :
    loadPages file pageTable inFileAddr firstPage firstPageSize i n mem =
      ((List.range' i n).map fun i => (⟨i, 0, 128, inFileAddr + firstPageSize +
        (BitVec.ofNat 32 i - firstPage - 1) * 128⟩ : Read)).foldlM (readInto file pageTable) mem := by
  induction n generalizing i mem with
  | zero => rfl
  | succ n ih =>
    rw [List.range'_succ, List.map_cons, List.foldlM_cons, loadPages, readInto]
    cases pageTable[i]? with
    | none => rfl
    | some e =>
      simp only [Option.map_some, Int.add_zero]
      exact ih (i + 1) _

theorem foldlM_if {c : Prop} [Decidable c] (r : Read) (mem : Memory) :
    (if c then [r] else []).foldlM (readInto file pageTable) mem =
      if c then readInto file pageTable mem r else some mem := by
  split
  · rw [List.foldlM_cons]
    cases readInto file pageTable mem r with
    | none => rfl
    | some mem' => rfl
  · rfl

/-- **The loader makes these calls.** -/
theorem loadSegment_eq_reads (seg : Segment) (mem : Memory) :
    loadSegment file pageTable seg mem = (reads seg).foldlM (readInto file pageTable) mem := by
  unfold loadSegment reads
  by_cases hsize : 0 < seg.size.toInt
  · rw [if_pos hsize, if_pos hsize]
    simp only [List.foldlM_cons, List.foldlM_append, foldlM_if]
    rw [readInto]
    cases pageTable[(seg.virtualAddr.sdiv 128).toNat]? with
    | none => rfl
    | some first =>
      simp only [Option.map_some, Option.bind_eq_bind, Option.bind_some, loadPages_eq_reads]
      rw [Int.add_sub_assoc]
      congr 1
      refine ite_congr rfl (fun _ => ?_) (fun _ => rfl)
      rw [readInto]
      simp only [Int.add_zero]
      split
      · rename_i hnone
        rw [hnone, Option.map_none]
      · rename_i hlast
        rw [hlast, Option.map_some]
  · rw [if_neg hsize, if_neg hsize]
    rfl

/-! ## A segment that fits -/

/-- A call inside of one page, in front of address `n`. -/
structure Read.Inside (r : Read) (n : Nat) : Prop where
  index : r.index * PageSize < n
  start : 0 ≤ r.offset
  stop : r.offset + r.numBytes.toInt ≤ PageSize

/-- The calls for a segment at `a` of `z` bytes. -/
theorem inside_of_mem_reads {a z : Nat} {inFileAddr : Word} (hz : 0 < z) (haz : a + z < 2 ^ 30) {r : Read}
    (hr : r ∈ reads ⟨BitVec.ofNat 32 a, inFileAddr, BitVec.ofNat 32 z⟩) : r.Inside (a + z) := by
  have hpage : (128 : Word) = BitVec.ofNat 32 PageSize := rfl
  have hsize : PageSize = 128 := rfl
  have hone : (1 : Word) = BitVec.ofNat 32 1 := rfl
  have hmod : a % PageSize < PageSize := Nat.mod_lt a (by decide)
  have hmod' : (a + z) % PageSize < PageSize := Nat.mod_lt (a + z) (by decide)
  have hdiv := Nat.div_add_mod a PageSize
  have hdiv' := Nat.div_add_mod (a + z) PageSize
  have hle := Nat.div_le_self a PageSize
  have hle' := Nat.div_le_self (a + z) PageSize
  unfold reads at hr
  simp only at hr
  rw [CInt.toInt_ofNat (by omega), if_pos (by omega), ← BitVec.ofNat_add, hpage,
    CInt.sdiv_ofNat (by omega) (by omega), CInt.sdiv_ofNat (by omega) (by omega),
    CInt.srem_ofNat (by omega) (by omega), CInt.srem_ofNat (by omega) (by omega),
    CInt.sub_ofNat (by omega) (by omega), CInt.slt_ofNat (by omega) (by omega)] at hr
  by_cases hcut : PageSize - a % PageSize < z
  · simp only [decide_eq_true hcut, if_true] at hr
    rw [CInt.toNat_ofNat (by omega), CInt.toInt_ofNat (by omega), hone, ← BitVec.ofNat_add, CInt.toNat_ofNat (by omega),
      CInt.toNat_ofNat (by omega)] at hr
    rcases List.mem_cons.1 hr with rfl | hr
    · refine ⟨?_, ?_, ?_⟩
      · show a / PageSize * PageSize < a + z
        rw [Nat.mul_comm]
        omega
      · show 0 ≤ (PageSize : Int) - _
        omega
      · show (PageSize : Int) - _ + (BitVec.ofNat 32 _).toInt ≤ _
        rw [CInt.toInt_ofNat (by omega)]
        omega
    · rcases List.mem_append.1 hr with hr | hr
      · split at hr
        · rename_i hlast
          obtain rfl := List.mem_singleton.1 hr
          have hne : (a + z) % PageSize ≠ 0 := by
            intro h0
            rw [h0] at hlast
            exact hlast rfl
          refine ⟨?_, Int.le_refl 0, ?_⟩
          · show (a + z) / PageSize * PageSize < a + z
            rw [Nat.mul_comm]
            omega
          · show 0 + (BitVec.ofNat 32 _).toInt ≤ _
            rw [CInt.toInt_ofNat (by omega)]
            omega
        · cases hr
      · obtain ⟨i, hi, rfl⟩ := List.mem_map.1 hr
        obtain ⟨hi1, hi2⟩ := List.mem_range'_1.1 hi
        have hwhole : (0 : Int) + (BitVec.ofNat 32 PageSize).toInt ≤ PageSize := by decide
        refine ⟨?_, Int.le_refl 0, hwhole⟩
        show i * PageSize < a + z
        simp only [PageSize, SectorSize] at *
        omega
  · simp only [decide_eq_false hcut, Bool.false_eq_true, if_false, ne_eq, not_true, List.nil_append] at hr
    rw [CInt.toNat_ofNat (by omega), CInt.toInt_ofNat (by omega), Nat.sub_self, List.range'_zero, List.map_nil] at hr
    obtain rfl := List.mem_singleton.1 hr
    refine ⟨?_, ?_, ?_⟩
    · show a / PageSize * PageSize < a + z
      rw [Nat.mul_comm]
      omega
    · show 0 ≤ (PageSize : Int) - _
      omega
    · show (PageSize : Int) - _ + (BitVec.ofNat 32 _).toInt ≤ _
      rw [CInt.toInt_ofNat (by omega)]
      omega

/-- A call that starts in front of address 0. -/
theorem reads_negative {seg : Segment} (hsize : 0 < seg.size.toInt) (hva : seg.virtualAddr.toInt < 0) :
    ∃ r ∈ reads seg, 0 < r.numBytes.toInt ∧ (2 ^ 31 ≤ r.index ∨ r.index = 0 ∧ r.offset < 0) := by
  have hlow := BitVec.le_two_mul_toInt (x := seg.virtualAddr)
  obtain ⟨d, hd⟩ : ∃ d : Nat, seg.virtualAddr.toInt = -(d : Int) := ⟨seg.virtualAddr.toInt.natAbs, by omega⟩
  have hquot : seg.virtualAddr.toInt.tdiv 128 = -((d / 128 : Nat) : Int) := by
    rw [hd, Int.neg_tdiv]
    rfl
  have hmod : seg.virtualAddr.toInt.tmod 128 = -((d % 128 : Nat) : Int) := by
    rw [hd, Int.neg_tmod]
    rfl
  have hdiv : (seg.virtualAddr.sdiv 128).toInt = -((d / 128 : Nat) : Int) := by
    rw [← hquot, BitVec.toInt_sdiv]
    refine Int.bmod_eq_of_le ?_ ?_
    · show _ ≤ seg.virtualAddr.toInt.tdiv 128
      omega
    · show seg.virtualAddr.toInt.tdiv 128 < _
      omega
  have htemp : (128 - seg.virtualAddr.srem 128).toInt = 128 + (d % 128 : Nat) := by
    rw [BitVec.toInt_sub, BitVec.toInt_srem, show (128 : Word).toInt = 128 from rfl, hmod]
    rw [Int.bmod_eq_of_le (by omega) (by omega)]
    omega
  rw [reads, if_pos hsize]
  refine ⟨_, List.mem_cons_self, ?_, ?_⟩
  · simp only
    split
    · rw [htemp]
      omega
    · exact hsize
  · simp only [htemp]
    by_cases hfar : 128 ≤ d
    · left
      rw [BitVec.toInt_eq_toNat_cond] at hdiv
      split at hdiv
      · omega
      · omega
    · right
      have hword : seg.virtualAddr.sdiv 128 = 0 := by
        apply BitVec.eq_of_toInt_eq
        rw [hdiv, Nat.div_eq_of_lt (by omega)]
        rfl
      refine ⟨by rw [hword]; rfl, ?_⟩
      have hpage : (PageSize : Int) = 128 := rfl
      omega

/-- The first page gets the lowest frame. -/
theorem setupPages_least (i n : Nat) (bm : BitMap) (mem : Memory) (hn : n ≤ bm.numClear) :
    ∀ e0 e, (setupPages i n bm mem).1.head? = some e0 → e ∈ (setupPages i n bm mem).1 →
      e0.physicalPage ≤ e.physicalPage := by
  intro e0 e h0 he
  obtain ⟨fs, hlen, htaken, hpt, -⟩ := setupPages_spec i n bm mem hn
  cases n with
  | zero => cases h0
  | succ n =>
    rcases bm.find_spec with ⟨f, hfind, -, -, hbelow⟩ | ⟨-, hall⟩
    · have hfirst : e0.physicalPage = f := by
        simp only [setupPages, hfind, List.head?_cons, Option.some.injEq] at h0
        rw [← h0]
      rw [hpt] at he
      have hmem : e.physicalPage ∈ fs.map (fun f : Nat => (f : Int)) := by
        rw [← map_physicalPage_fresh i fs, hlen]
        exact List.mem_map_of_mem he
      obtain ⟨g, hg, hgp⟩ := List.mem_map.1 hmem
      rw [hfirst, ← hgp]
      have hclear := (htaken.free g hg).2
      by_contra hlt
      rw [hbelow g (by omega)] at hclear
      cases hclear
    · obtain ⟨j, hj, hbit⟩ := BitMap.numClear_pos.1 (show 0 < bm.numClear by omega)
      rw [hall j hj] at hbit
      cases hbit

/-! ## The whole address space -/

/-- The calls for the code and the data stay inside of the page table and of its frames, and behind every
segment there are `UserStackSize` bytes. -/
structure Stays (h : NoffHeader) (pageTable : List TranslationEntry) : Prop where
  index : ∀ r ∈ reads h.code ++ reads h.initData, r.index < numPages h
  frame : ∀ r ∈ reads h.code ++ reads h.initData, ∀ e, pageTable[r.index]? = some e → ∀ x : Int,
    e.physicalPage * PageSize + r.offset ≤ x → x < e.physicalPage * PageSize + r.offset + r.numBytes.toInt →
    ∃ e' ∈ pageTable, e'.physicalPage * PageSize ≤ x ∧ x < (e'.physicalPage + 1) * PageSize
  stack : ∀ seg ∈ [h.code, h.initData, h.uninitData], 0 < seg.size.toInt →
    seg.virtualAddr.toInt + seg.size.toInt + UserStackSize ≤ (numPages h * PageSize : Nat)

/-- No segment that is copied starts in front of address 0, and none ends behind the sum of the three sizes,
up to the rounding. -/
structure Compact (h : NoffHeader) : Prop where
  start : ∀ seg ∈ [h.code, h.initData], 0 < seg.size.toInt → 0 ≤ seg.virtualAddr.toInt
  stop : ∀ seg ∈ [h.code, h.initData, h.uninitData], 0 < seg.size.toInt →
    seg.virtualAddr.toInt + seg.size.toInt + UserStackSize ≤ (divRoundUp (imageSize h).toNat PageSize * PageSize : Nat)

theorem length_readAt_le (file : List Byte) (numBytes position : Word) :
    ((readAt file numBytes position).length : Int) ≤ max numBytes.toInt 0 := by
  unfold readAt
  split
  · rw [List.length_nil]
    omega
  · rename_i h
    obtain ⟨n, hn, rfl⟩ := CInt.exists_ofNat (w := numBytes) (by omega)
    rw [CInt.toInt_ofNat hn, CInt.toNat_ofNat hn, List.length_take]
    omega

/-- A call inside of its page changes its frame only. -/
theorem readInto_inside (file : List Byte) {fs : List Nat} (hpt : pageTable.map (·.physicalPage) = fs.map (fun f : Nat => (f : Int)))
    {r : Read} {n : Nat} (hr : r.Inside n) (hn : n ≤ fs.length * PageSize) (mem : Memory) :
    ∃ mem', readInto file pageTable mem r = some mem' ∧ ∀ a, a / PageSize ∉ fs → mem' a = mem a := by
  have hlt : r.index < fs.length := by
    have := hr.index
    exact Nat.lt_of_mul_lt_mul_right (Nat.lt_of_lt_of_le this hn)
  obtain ⟨e, he, hphys⟩ := getElem?_physicalPage hpt (List.getElem?_eq_getElem hlt)
  refine ⟨_, by rw [readInto, he, Option.map_some], ?_⟩
  intro a ha
  have hne : a / PageSize ≠ fs[r.index] := fun h => ha (h ▸ List.getElem_mem hlt)
  have hlen := length_readAt_le file r.numBytes r.position
  have hstart := hr.start
  have hstop := hr.stop
  have hdiv := Nat.div_add_mod a PageSize
  have hmod : a % PageSize < PageSize := Nat.mod_lt a (by decide)
  obtain ⟨off, hoff⟩ : ∃ off : Nat, r.offset = off := ⟨r.offset.toNat, by omega⟩
  have haddr : e.physicalPage * PageSize + r.offset = ((fs[r.index] * PageSize + off : Nat) : Int) := by
    rw [hphys, hoff]
    push_cast
    rfl
  rw [haddr]
  apply Bytes.blit_apply_of_not_mem
  rintro ⟨h1, h2⟩
  apply hne
  simp only [PageSize, SectorSize] at *
  omega

theorem foldlM_readInto (file : List Byte) {fs : List Nat} (hpt : pageTable.map (·.physicalPage) = fs.map (fun f : Nat => (f : Int)))
    {n : Nat} (hn : n ≤ fs.length * PageSize) (rs : List Read) (hrs : ∀ r ∈ rs, r.Inside n) (mem : Memory) :
    ∃ mem', rs.foldlM (readInto file pageTable) mem = some mem' ∧ ∀ a, a / PageSize ∉ fs → mem' a = mem a := by
  induction rs generalizing mem with
  | nil => exact ⟨mem, rfl, fun _ _ => rfl⟩
  | cons r rs ih =>
    obtain ⟨mem1, hmem1, hkeep1⟩ := readInto_inside file hpt (hrs r List.mem_cons_self) hn mem
    obtain ⟨mem2, hmem2, hkeep2⟩ := ih (fun r' hr' => hrs r' (List.mem_cons_of_mem r hr')) mem1
    refine ⟨mem2, ?_, fun a ha => (hkeep2 a ha).trans (hkeep1 a ha)⟩
    rw [List.foldlM_cons, hmem1]
    exact hmem2

/-- What the constructor leaves behind when it accepts the header. -/
theorem create_accepts {junk : Nat → Byte} {bm : BitMap} {mem : Memory} {b : Built} (hb : create junk file bm mem = some b) :
    ∃ (fs : List Nat) (mem0 : Memory), numPages (readHeader junk file) ≤ bm.numClear ∧
      fs.length = numPages (readHeader junk file) ∧ b.pageTable.map (·.physicalPage) = fs.map (fun f : Nat => (f : Int)) ∧
      (∀ e0 e, b.pageTable.head? = some e0 → e ∈ b.pageTable → e0.physicalPage ≤ e.physicalPage) ∧
      (∀ a, a / PageSize ∉ fs → mem0 a = mem a) ∧
      b.mem = (reads (readHeader junk file).code ++ reads (readHeader junk file).initData).foldlM
        (readInto file b.pageTable) mem0 := by
  unfold create at hb
  simp only at hb
  generalize readHeader junk file = h at hb ⊢
  split at hb
  · cases hb
  · split at hb
    · cases hb
    · rename_i hfit
      have hspec := setupPages_spec 0 _ bm mem (Nat.le_of_not_lt hfit)
      have hleast := setupPages_least 0 _ bm mem (Nat.le_of_not_lt hfit)
      generalize setupPages 0 (numPages h) bm mem = built at hb hspec hleast
      obtain ⟨pt, bm', mem0⟩ := built
      obtain ⟨fs, hlen, -, hpt, hzero⟩ := hspec
      cases hb
      refine ⟨fs, mem0, Nat.le_of_not_lt hfit, hlen, ?_, hleast, fun a ha => (hzero a).trans (if_neg ha), ?_⟩
      · show pt.map _ = _
        rw [show pt = _ from hpt, ← hlen]
        exact map_physicalPage_fresh 0 fs
      · rw [List.foldlM_append, ← loadSegment_eq_reads]
        apply congrArg (Option.bind _)
        funext mem1
        exact loadSegment_eq_reads _ mem1

/-- The calls for a compact header are inside of the address space. -/
theorem Compact.inside {h : NoffHeader} (hc : Compact h) (hpages : numPages h ≤ NumPhysPages) :
    ∀ r ∈ reads h.code ++ reads h.initData, r.Inside (numPages h * PageSize) := by
  have hseg : ∀ seg ∈ [h.code, h.initData], ∀ r ∈ reads seg, r.Inside (numPages h * PageSize) := by
    intro seg hseg r hr
    by_cases hsize : 0 < seg.size.toInt
    · have hmem : seg ∈ [h.code, h.initData, h.uninitData] := List.mem_append_left [h.uninitData] hseg
      have hstop := hc.stop seg hmem hsize
      obtain ⟨va, inFileAddr, size⟩ := seg
      obtain ⟨a, ha, rfl⟩ := CInt.exists_ofNat (hc.start _ hseg hsize)
      obtain ⟨z, hz, rfl⟩ := CInt.exists_ofNat (Int.le_of_lt hsize)
      simp only [CInt.toInt_ofNat ha, CInt.toInt_ofNat hz] at hstop hsize
      have hle : a + z ≤ numPages h * PageSize := by
        rw [numPages]
        omega
      have hsmall : numPages h * PageSize ≤ NumPhysPages * PageSize := Nat.mul_le_mul_right _ hpages
      have hmax : NumPhysPages * PageSize < 2 ^ 30 := by decide
      have hin := inside_of_mem_reads (by omega) (by omega) hr
      exact ⟨Nat.lt_of_lt_of_le hin.index hle, hin.start, hin.stop⟩
    · rw [reads, if_neg hsize] at hr
      cases hr
  intro r hr
  rcases List.mem_append.1 hr with hr | hr
  · exact hseg h.code (by simp) r hr
  · exact hseg h.initData (by simp) r hr

theorem Compact.stays {h : NoffHeader} (hc : Compact h) (hpages : numPages h ≤ NumPhysPages) : Stays h pageTable := by
  have hin := hc.inside hpages
  refine ⟨?_, ?_, hc.stop⟩
  · intro r hr
    exact Nat.lt_of_mul_lt_mul_right (hin r hr).index
  · intro r hr e he x h1 h2
    have hstart := (hin r hr).start
    have hstop := (hin r hr).stop
    refine ⟨e, List.mem_of_getElem? he, by omega, ?_⟩
    rw [Int.add_mul]
    omega

/-- A segment in front of address 0 leaves the page table, or its first frame. -/
theorem Stays.compact {h : NoffHeader} (hs : Stays h pageTable) (hpages : numPages h ≤ NumPhysPages)
    (hlen : pageTable.length = numPages h)
    (hleast : ∀ e0 e, pageTable.head? = some e0 → e ∈ pageTable → e0.physicalPage ≤ e.physicalPage) : Compact h := by
  refine ⟨?_, hs.stack⟩
  intro seg hseg hsize
  by_contra hneg
  obtain ⟨r, hr, hbytes, hwhere⟩ := reads_negative hsize (Int.lt_of_not_ge hneg)
  have hmem : r ∈ reads h.code ++ reads h.initData := by
    rcases List.mem_cons.1 hseg with rfl | hseg
    · exact List.mem_append_left _ hr
    · rcases List.mem_singleton.1 hseg with rfl
      exact List.mem_append_right _ hr
  have hidx := hs.index r hmem
  have hmax : NumPhysPages < 2 ^ 31 := by decide
  rcases hwhere with hfar | ⟨hzero, hoff⟩
  · omega
  · have hlt : r.index < pageTable.length := hlen.symm ▸ hidx
    obtain ⟨e0, hget⟩ : ∃ e0, pageTable[r.index]? = some e0 := ⟨_, List.getElem?_eq_getElem hlt⟩
    have hhead : pageTable.head? = some e0 := by
      rw [List.head?_eq_getElem?, ← hget, hzero]
    obtain ⟨e', he', hlow, -⟩ := hs.frame r hmem e0 hget _ (Int.le_refl _) (by omega)
    have hmul : e0.physicalPage * (PageSize : Int) ≤ e'.physicalPage * PageSize :=
      Int.mul_le_mul_of_nonneg_right (hleast e0 e' hhead he') (Int.natCast_nonneg _)
    omega

/-- **The loader stays inside of its own pages**, for every header that the constructor accepts, exactly if
the header is compact; and then it changes no byte of main memory outside of its frames. -/
theorem loader_stays_iff {junk : Nat → Byte} {file : List Byte} {bm : BitMap} {mem : Memory} {b : Built}
    (hbm : bm.numBits = NumPhysPages) (hb : create junk file bm mem = some b) :
    (Stays (readHeader junk file) b.pageTable ↔ Compact (readHeader junk file)) ∧
    (Compact (readHeader junk file) → ∃ mem', b.mem = some mem' ∧
      ∀ a : Nat, (∀ e ∈ b.pageTable, e.physicalPage ≠ (a / PageSize : Nat)) → mem' a = mem a) := by
  obtain ⟨fs, mem0, hfit, hlen, hpt, hleast, hmem0, hmem⟩ := create_accepts hb
  generalize readHeader junk file = h at hfit hlen hmem ⊢
  have hpages : numPages h ≤ NumPhysPages := by
    rw [← hbm]
    exact Nat.le_trans hfit bm.numClear_le
  have htable : b.pageTable.length = numPages h := by
    have := congrArg List.length hpt
    rwa [List.length_map, List.length_map, hlen] at this
  refine ⟨⟨fun hs => hs.compact hpages htable hleast, fun hc => hc.stays hpages⟩, ?_⟩
  intro hc
  have hin := hc.inside hpages
  rw [← hlen] at hin
  obtain ⟨mem', hmem', hkeep⟩ := foldlM_readInto file hpt (Nat.le_refl _) _ hin mem0
  refine ⟨mem', hmem.trans hmem', ?_⟩
  intro a ha
  have hnot : a / PageSize ∉ fs := by
    intro hin'
    obtain ⟨i, hi, hfi⟩ := List.getElem_of_mem hin'
    obtain ⟨e, he, hphys⟩ := getElem?_physicalPage hpt (List.getElem?_eq_getElem hi)
    exact ha e (List.mem_of_getElem? he) (by rw [hphys, hfi])
  rw [hkeep a hnot, hmem0 a hnot]

/-- A NOFF file with four bytes of code for address `va`. -/
def codeAt (va : List Byte) : List Byte :=
  [0xad, 0xdf, 0xba, 0] ++ va ++ [40, 0, 0, 0, 4, 0, 0, 0] ++ List.replicate 24 0 ++ [1, 2, 3, 4]

/-- All frames are free. -/
def freeMap : BitMap := ⟨NumPhysPages, List.replicate 4 0, length_replicate_words⟩

theorem numClear_freeMap : freeMap.numClear = NumPhysPages := by decide +kernel

theorem header_codeAt_zero : readHeader (fun _ => 0) (codeAt [0, 0, 0, 0]) =
    ⟨NOFFMAGIC, ⟨0, 40, 4⟩, ⟨0, 0, 0⟩, ⟨0, 0, 0⟩⟩ := by decide +kernel

theorem header_codeAt_far : readHeader (fun _ => 0) (codeAt [0, 16, 0, 0]) =
    ⟨NOFFMAGIC, ⟨4096, 40, 4⟩, ⟨0, 0, 0⟩, ⟨0, 0, 0⟩⟩ := by decide +kernel

/-- A file with a good header is accepted. -/
theorem create_isSome {junk : Nat → Byte} {bm : BitMap} {mem : Memory}
    (hmagic : (readHeader junk file).noffMagic = NOFFMAGIC) (hfit : numPages (readHeader junk file) ≤ bm.numClear) :
    ∃ b, create junk file bm mem = some b := by
  unfold create
  simp only
  rw [if_neg (not_not.2 hmagic), if_neg (Nat.not_lt.2 hfit)]
  exact ⟨_, rfl⟩

theorem loader_stays_codeAt_zero : ∃ b, create (fun _ => 0) (codeAt [0, 0, 0, 0]) freeMap (fun _ => 0) = some b ∧
    Stays (readHeader (fun _ => 0) (codeAt [0, 0, 0, 0])) b.pageTable := by
  obtain ⟨b, hb⟩ : ∃ b, create (fun _ => 0) (codeAt [0, 0, 0, 0]) freeMap (fun _ => 0) = some b := by
    apply create_isSome
    · rw [header_codeAt_zero]
    · rw [header_codeAt_zero, numClear_freeMap]
      decide
  refine ⟨b, hb, (loader_stays_iff rfl hb).1.2 ?_⟩
  rw [header_codeAt_zero]
  exact ⟨by decide, by decide⟩

/-- Code for address 4096 uses entry 32 of a page table with 9 entries. -/
theorem loader_leaves_pageTable : ∃ b, create (fun _ => 0) (codeAt [0, 16, 0, 0]) freeMap (fun _ => 0) = some b ∧
    b.pageTable.length = 9 ∧ ∃ r ∈ reads (readHeader (fun _ => 0) (codeAt [0, 16, 0, 0])).code, r.index = 32 := by
  obtain ⟨b, hb⟩ : ∃ b, create (fun _ => 0) (codeAt [0, 16, 0, 0]) freeMap (fun _ => 0) = some b := by
    apply create_isSome
    · rw [header_codeAt_far]
    · rw [header_codeAt_far, numClear_freeMap]
      decide
  refine ⟨b, hb, ?_, ?_⟩
  · obtain ⟨fs, mem0, -, hlen, hpt, -⟩ := create_accepts hb
    have := congrArg List.length hpt
    rw [List.length_map, List.length_map, hlen, header_codeAt_far] at this
    exact this
  · rw [header_codeAt_far]
    exact ⟨_, List.mem_cons_self, rfl⟩

end AddrSpace

end Nachos
