import Mathlib.Order.Bounds.Basic
import Nachos.Filesys.FileSystem
import Nachos.Filesys.FlatFile

/-!
# Bitmaps as sets

The calls of a `BitMap`, in any order, against the set of its marked bits.

* `exec_spec` — one call, with an index in range, does what `Does` says to the set.
* `run_spec` — and so does every sequence of calls.
* `fetch_writeBack` — what `WriteBack` leaves in a file is what `FetchFrom` gets.
* `bitMap_is_set` — a new bitmap, over storage that held anything.
-/

set_option autoImplicit false

namespace Nachos

namespace BitMap

inductive Op where
  | mark (which : Int)
  | clear (which : Int)
  | test (which : Int)
  | find
  | numClear
  deriving DecidableEq, Repr

/-- What a call returns. -/
inductive Reply where
  | done
  | truth (t : Bool)
  | number (n : Int)
  deriving DecidableEq, Repr

/-- A call; `none` is a failed `ASSERT`. -/
def exec (b : BitMap) : Op → Option (Reply × BitMap)
  | .mark which => (b.mark which).map fun b => (.done, b)
  | .clear which => (b.clear which).map fun b => (.done, b)
  | .test which => (b.test which).map fun t => (.truth t, b)
  | .find =>
    match b.find with
    | (some i, b) => some (.number i, b)
    | (none, b) => some (.number (-1), b)
  | .numClear => some (.number b.numClear, b)

def run (b : BitMap) : List Op → Option (List Reply × BitMap)
  | [] => some ([], b)
  | op :: ops =>
    (b.exec op).bind fun x => (run x.2 ops).map fun y => (x.1 :: y.1, y.2)

/-- The index of the call is in range. -/
def Op.inRange (nitems : Nat) : Op → Bool
  | .mark which | .clear which | .test which => 0 ≤ which && which < nitems
  | .find | .numClear => true

/-! ## The set -/

/-- The set that the words represent. -/
def marked (b : BitMap) : Finset Nat := (Finset.range b.numBits).filter fun i => b.bit i = true

/-- **What a call is for**, on a subset of `{0 .. nitems - 1}`: the reply and the set afterwards. -/
def Does (nitems : Nat) (S : Finset Nat) (r : Reply) (S' : Finset Nat) : Op → Prop
  | .mark which => r = .done ∧ S' = insert which.toNat S
  | .clear which => r = .done ∧ S' = S.erase which.toNat
  | .test which => r = .truth (decide (which.toNat ∈ S)) ∧ S' = S
  | .find =>
    (S = Finset.range nitems ∧ r = .number (-1) ∧ S' = S) ∨
      ∃ i, IsLeast {i | i < nitems ∧ i ∉ S} i ∧ r = .number i ∧ S' = insert i S
  | .numClear => r = .number (nitems - S.card) ∧ S' = S

def DoesAll (nitems : Nat) : Finset Nat → List Op → List Reply → Finset Nat → Prop
  | S, [], rs, S' => rs = [] ∧ S' = S
  | S, op :: ops, r :: rs, S' => ∃ S₁, Does nitems S r S₁ op ∧ DoesAll nitems S₁ ops rs S'
  | _, _ :: _, [], _ => False

variable {b b' : BitMap}

theorem mem_marked {i : Nat} : i ∈ b.marked ↔ i < b.numBits ∧ b.bit i = true := by
  rw [marked, Finset.mem_filter, Finset.mem_range]

theorem marked_subset (b : BitMap) : b.marked ⊆ Finset.range b.numBits := Finset.filter_subset _ _

theorem marked_setBit {i : Nat} (h : i < b.numBits) : (b.setBit i).marked = insert i b.marked := by
  ext j
  rw [Finset.mem_insert, mem_marked, mem_marked, numBits_setBit, bit_setBit h]
  by_cases hj : j = i
  · simp [hj, h]
  · simp [hj]

theorem marked_clearBit {i : Nat} (h : i < b.numBits) : (b.clearBit i).marked = b.marked.erase i := by
  ext j
  rw [Finset.mem_erase, mem_marked, mem_marked, numBits_clearBit, bit_clearBit h]
  by_cases hj : j = i
  · simp [hj]
  · simp [hj]

theorem clearSet_eq (b : BitMap) : b.clearSet = Finset.range b.numBits \ b.marked := by
  ext j
  rw [mem_clearSet, Finset.mem_sdiff, Finset.mem_range, mem_marked]
  cases b.bit j with
  | false => simp
  | true => simp

/-- What is not clear is marked. -/
theorem numClear_marked (b : BitMap) : (b.numClear : Int) = b.numBits - b.marked.card := by
  have hcard := Finset.card_sdiff_add_card_eq_card b.marked_subset
  rw [Finset.card_range] at hcard
  rw [numClear_eq_card, clearSet_eq]
  omega

theorem marked_init (n : Nat) (junk : List Word) (h : junk.length = divRoundUp n BitsInWord) :
    (init n junk h).marked = ∅ := by
  apply Finset.eq_empty_of_forall_notMem
  intro i hi
  obtain ⟨hlt, hbit⟩ := mem_marked.1 hi
  rw [numBits_init] at hlt
  rw [bit_init n junk h hlt] at hbit
  cases hbit

/-! ## Calls -/

/-- **One call.** -/
theorem exec_spec {op : Op} (hop : op.inRange b.numBits = true) :
    ∃ r b', b.exec op = some (r, b') ∧ b'.numBits = b.numBits ∧ Does b.numBits b.marked r b'.marked op := by
  cases op with
  | mark which =>
    have hrange : b.inRange which = true := hop
    obtain ⟨h0, hlt⟩ := inRange_iff.1 hrange
    refine ⟨.done, b.setBit which.toNat, ?_, rfl, rfl, marked_setBit (by omega)⟩
    rw [exec, mark, if_pos hrange]
    rfl
  | clear which =>
    have hrange : b.inRange which = true := hop
    obtain ⟨h0, hlt⟩ := inRange_iff.1 hrange
    refine ⟨.done, b.clearBit which.toNat, ?_, rfl, rfl, marked_clearBit (by omega)⟩
    rw [exec, clear, if_pos hrange]
    rfl
  | test which =>
    have hrange : b.inRange which = true := hop
    obtain ⟨h0, hlt⟩ := inRange_iff.1 hrange
    refine ⟨.truth (b.bit which.toNat), b, ?_, rfl, ?_, rfl⟩
    · rw [exec, test, if_pos hrange]
      rfl
    · have hmem : decide (which.toNat ∈ b.marked) = b.bit which.toNat := by
        rw [Bool.eq_iff_iff, decide_eq_true_eq, mem_marked]
        exact and_iff_right (by omega)
      rw [hmem]
  | find =>
    unfold exec
    rcases b.find_spec with ⟨i, hfind, hi, hbit, hleast⟩ | ⟨hfind, hall⟩
    · rw [hfind]
      refine ⟨_, _, rfl, rfl, .inr ⟨i, ⟨⟨hi, ?_⟩, ?_⟩, rfl, marked_setBit hi⟩⟩
      · rw [mem_marked, hbit]
        simp
      · rintro j ⟨hj, hnot⟩
        by_contra hji
        exact hnot (mem_marked.2 ⟨hj, hleast j (by omega)⟩)
    · rw [hfind]
      refine ⟨_, _, rfl, rfl, .inl ⟨?_, rfl, rfl⟩⟩
      apply Finset.Subset.antisymm b.marked_subset
      intro j hj
      rw [Finset.mem_range] at hj
      exact mem_marked.2 ⟨hj, hall j hj⟩
  | numClear => exact ⟨_, b, rfl, rfl, by rw [numClear_marked], rfl⟩

/-- **Every sequence of calls.** -/
theorem run_spec {ops : List Op} (hops : ∀ op ∈ ops, op.inRange b.numBits = true) :
    ∃ rs b', b.run ops = some (rs, b') ∧ b'.numBits = b.numBits ∧ DoesAll b.numBits b.marked ops rs b'.marked := by
  induction ops generalizing b with
  | nil => exact ⟨[], b, rfl, rfl, rfl, rfl⟩
  | cons op ops ih =>
    obtain ⟨r, b₁, hexec, hnum, hdoes⟩ := exec_spec (hops op List.mem_cons_self)
    obtain ⟨rs, b', hrun, hnum', hall⟩ :=
      @ih b₁ (by rw [hnum]; exact fun op hop => hops op (List.mem_cons_of_mem _ hop))
    rw [hnum] at hnum' hall
    refine ⟨r :: rs, b', ?_, hnum', b₁.marked, hdoes, hall⟩
    rw [run, hexec, Option.bind_some, hrun]
    rfl

/-! ## Files -/

/-- **What is written back is fetched again**, by any bitmap of the same size, from a file that is
long enough. -/
theorem fetch_writeBack {file : OpenFile} {ss : List Nat} (hc : file.hdr.Covers ss) (hnd : ss.Nodup)
    (hlen : divRoundUp b.numBits BitsInWord * 4 ≤ file.hdr.numBytes.toNat) (disk : Disk) (junk : Nat → Buffer) :
    ∃ disk', b.writeBack disk file junk = some disk' ∧
      ∀ b' : BitMap, b'.numBits = b.numBits → ∀ junk', b'.fetchFrom disk' file junk' = some b := by
  rcases Nat.eq_zero_or_pos (divRoundUp b.numBits BitsInWord) with hzero | hpos
  · -- no words, and neither call does anything
    refine ⟨disk, ?_, ?_⟩
    · rw [writeBack, hzero]
      rfl
    · intro b' hb' junk'
      have hread : OpenFile.readAt disk file.hdr junk' (Bytes.ofWords b'.map) 0 (BitVec.ofNat 32 (0 * 4)) 0 =
          some (0, Bytes.ofWords b'.map) := rfl
      rw [fetchFrom, hb', hzero, hread, Option.map_some, FileSystem.ofBuffer_eq hb']
      intro k hk
      rw [hb', hzero, Nat.zero_mul] at hk
      exact absurd hk (Nat.not_lt_zero k)
  · have hbound := OpenFile.covers_numBytes hc
    have hfits : min (divRoundUp b.numBits BitsInWord * 4) (file.hdr.numBytes.toNat - 0) =
        divRoundUp b.numBits BitsInWord * 4 := by omega
    obtain ⟨disk', hwrite, hin, -, -⟩ := OpenFile.writeAt_spec hc hnd disk junk (Bytes.ofWords b.map) (p := 0)
      (show 0 < divRoundUp b.numBits BitsInWord * 4 by omega) (by omega) (by omega)
    refine ⟨disk', ?_, ?_⟩
    · have hzero : (0 : Word) = BitVec.ofNat 32 0 := rfl
      rw [writeBack, hzero, hwrite]
      rfl
    · intro b' hb' junk'
      obtain ⟨into, hread, hover⟩ := OpenFile.readAt_spec hc disk' junk' (Bytes.ofWords b'.map) 0 (p := 0)
        (show 0 < divRoundUp b.numBits BitsInWord * 4 by omega) (by omega) (by omega)
      have hzero : (0 : Word) = BitVec.ofNat 32 0 := rfl
      rw [fetchFrom, hb', hzero, hread, Option.map_some, FileSystem.ofBuffer_eq hb']
      intro k hk
      rw [hb'] at hk
      have hinto := hover.inside k ⟨Nat.zero_le k, by rw [hfits]; omega⟩
      rw [Nat.zero_add, Nat.sub_zero, hin k (Nat.zero_le k) (by rw [hfits]; omega), Nat.sub_zero] at hinto
      exact Option.some.inj hinto

/-- Two words, for the 40 bits of the example below. -/
theorem length_twoWords : [0xFFFFFFFF, (0xFFFFFFFF : Word)].length = divRoundUp 40 BitsInWord := rfl

end BitMap

open BitMap

/-- **A bitmap is a set**: a new one, over storage that held anything, is the empty set, and every
sequence of calls with indices in range does what it is for.  `Mark` and `Clear` touch no other bit of
the storage, and a file that is long enough keeps the set. -/
theorem bitMap_is_set (nitems : Nat) (junk : List Word) (hjunk : junk.length = divRoundUp nitems BitsInWord)
    (ops : List Op) (hops : ∀ op ∈ ops, op.inRange nitems = true) :
    ∃ rs b, (BitMap.init nitems junk hjunk).run ops = some (rs, b) ∧ b.numBits = nitems ∧
      b.marked ⊆ Finset.range nitems ∧ DoesAll nitems ∅ ops rs b.marked ∧
      (∀ i < nitems, (∃ b', b.mark i = some b' ∧ ∀ j, b'.bit j = if j = i then true else b.bit j) ∧
        ∃ b', b.clear i = some b' ∧ ∀ j, b'.bit j = if j = i then false else b.bit j) ∧
      ∀ (file : OpenFile) (ss : List Nat) (disk : Disk) (mem : Nat → Buffer), file.hdr.Covers ss → ss.Nodup →
        divRoundUp nitems BitsInWord * 4 ≤ file.hdr.numBytes.toNat →
        ∃ disk', b.writeBack disk file mem = some disk' ∧
          ∀ b' : BitMap, b'.numBits = nitems → ∀ mem', b'.fetchFrom disk' file mem' = some b := by
  have hinit := numBits_init nitems junk hjunk
  obtain ⟨rs, b, hrun, hnum, hall⟩ := run_spec (b := BitMap.init nitems junk hjunk) (by rw [hinit]; exact hops)
  rw [hinit] at hnum hall
  rw [marked_init] at hall
  refine ⟨rs, b, hrun, hnum, by rw [← hnum]; exact b.marked_subset, hall, ?_, ?_⟩
  · intro i hi
    have hlt : i < b.numBits := by omega
    have hrange : b.inRange i = true := inRange_iff.2 (by omega)
    exact ⟨⟨b.setBit i, if_pos hrange, fun j => bit_setBit hlt j⟩,
      b.clearBit i, if_pos hrange, fun j => bit_clearBit hlt j⟩
  · intro file ss disk mem hc hnd hlen
    rw [← hnum] at hlen ⊢
    exact fetch_writeBack hc hnd hlen disk mem

theorem bitMap_is_set_forty :
    ∃ rs b, (BitMap.init 40 [0xFFFFFFFF, 0xFFFFFFFF] length_twoWords).run [.mark 31, .find, .test 31, .clear 31, .numClear] =
        some (rs, b) ∧
      DoesAll 40 ∅ [.mark 31, .find, .test 31, .clear 31, .numClear] rs b.marked ∧
      ∃ disk', b.writeBack (fun _ => 0) ⟨OpenFile.twoSectors 200, 0, 0⟩ (fun _ _ => 1) = some disk' := by
  obtain ⟨rs, b, hrun, -, -, hall, -, hfile⟩ := bitMap_is_set 40 [0xFFFFFFFF, 0xFFFFFFFF] length_twoWords
    [.mark 31, .find, .test 31, .clear 31, .numClear] (by decide)
  obtain ⟨disk', hwrite, -⟩ := hfile ⟨OpenFile.twoSectors 200, 0, 0⟩ [5, 7] (fun _ => 0) (fun _ _ => 1)
    OpenFile.covers_twoSectors (by decide) (by decide)
  exact ⟨rs, b, hrun, hall, disk', hwrite⟩

end Nachos
