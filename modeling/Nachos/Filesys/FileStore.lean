import Nachos.Filesys.DiskWrites
import Nachos.Filesys.FlatFile
import Nachos.Filesys.Handles

/-!
# A store of named files

Calls that create, remove, open, close, read and write files, with Nachos started again on the same disk at
any point.  A file is opened as the two functions `Open` begin: the directory gives the header sector, and
`OpenFile::OpenFile` reads the header.  The functions themselves do not return (`openName_unset`).  `respond`
is what the file system does, over the sessions of `Handles`.  `Store.Step` is what the calls are for: a
finite map from names to byte strings, and a position in a file for every file that is open.

* `window`, `splice` — reading and writing, in terms of byte strings.
* `readAt_window`, `writeAt_splice` — a request to an open file is that.
-/

set_option autoImplicit false

namespace Nachos

namespace FileSystem

open CString

/-! ## The store -/

/-- A file name as the directory compares it: up to its terminating zero, and cut off. -/
def key (name : List Byte) : List Byte := str (cstring name) 0 FileNameMaxLen

/-- The bytes from `position` on, as many of the `numBytes` as there are. -/
def window (c : List Byte) (numBytes position : Word) : List Byte :=
  (c.drop position.toInt.toNat).take numBytes.toInt.toNat

/-- `c` with `l` in place of the bytes from `position` on. -/
def splice (c l : List Byte) (position : Word) : List Byte :=
  c.take position.toInt.toNat ++ l ++ c.drop (position.toInt.toNat + l.length)

/-- The first `n` bytes of a buffer. -/
def taken (src : Buffer) (n : Nat) : List Byte := (List.range n).map src

/-- The sectors of a file of `size` bytes, with its header. -/
def sectorsFor (size : Nat) : Nat := 1 + divRoundUp size SectorSize

/-- An open file: its name, unless it has been removed since, and the position in it. -/
structure Cursor where
  file : Option (List Byte)
  position : Word

/-- The files by name, the files that are open, the number of files and the number of sectors for which
there is room. -/
structure Store where
  files : List Byte → Option (List Byte)
  cursors : Nat → Option Cursor
  entries : Nat
  room : Nat

/-- The calls.  `openFound` is a new `OpenFile` on the sector that `Directory::Find` gives for a name, `reboot`
is a new `FileSystem(FALSE)`. -/
inductive StoreCall where
  | create (junk : Nat → Buffer) (name : List Byte) (initialSize : Word)
  | remove (junk : Nat → Buffer) (name : List Byte)
  | openFound (junk : Nat → Buffer) (name : List Byte) (id : Nat) (type : Word)
  | close (id : Nat)
  | seek (id : Nat) (position : Word)
  | read (id : Nat) (junk into : Buffer) (off : Nat) (numBytes : Word)
  | write (id : Nat) (junk : Nat → Buffer) (src : Buffer) (numBytes : Word)
  | readAt (id : Nat) (junk into : Buffer) (off : Nat) (numBytes position : Word)
  | writeAt (id : Nat) (junk : Nat → Buffer) (src : Buffer) (numBytes position : Word)
  | reboot

/-- What a call returns: nothing, whether it succeeded, the bytes written, or the bytes read and the
buffer that they were read into. -/
inductive Reply where
  | done
  | status (success : Bool)
  | count (n : Word)
  | data (n : Word) (into : Buffer)

namespace Store

/-- A disk with no files: 1024 sectors, less two headers, one sector of free map and five of directory. -/
def empty : Store where
  files := fun _ => none
  cursors := fun _ => none
  entries := 10
  room := 1016

/-- There is room for a new file. -/
def Room (a : Store) (k : List Byte) (size : Nat) : Prop :=
  a.files k = none ∧ 0 < a.entries ∧ sectorsFor size ≤ a.room

/-- The file `k` is gone. -/
def forget (cursors : Nat → Option Cursor) (k : List Byte) : Nat → Option Cursor :=
  fun id => (cursors id).map (fun c => if c.file = some k then { c with file := none } else c)

/-- What a call may do.  Only the contents of a new file, and what is read through a file that has been
removed, are left open. -/
inductive Step (a : Store) : StoreCall → Reply → Store → Prop where
  | created {junk : Nat → Buffer} {name c : List Byte} {initialSize : Word} :
      a.Room (key name) initialSize.toNat → c.length = initialSize.toNat →
      Step a (.create junk name initialSize) (.status true)
        { a with
          files := Function.update a.files (key name) (some c)
          entries := a.entries - 1
          room := a.room - sectorsFor initialSize.toNat }
  | notCreated {junk : Nat → Buffer} {name : List Byte} {initialSize : Word} :
      ¬ a.Room (key name) initialSize.toNat → Step a (.create junk name initialSize) (.status false) a
  | removed {junk : Nat → Buffer} {name c : List Byte} : a.files (key name) = some c →
      Step a (.remove junk name) (.status true)
        { files := Function.update a.files (key name) none
          cursors := forget a.cursors (key name)
          entries := a.entries + 1
          room := a.room + sectorsFor c.length }
  | notRemoved {junk : Nat → Buffer} {name : List Byte} : a.files (key name) = none →
      Step a (.remove junk name) (.status false) a
  | opened {junk : Nat → Buffer} {name c : List Byte} {id : Nat} {type : Word} : a.files (key name) = some c →
      Step a (.openFound junk name id type) (.status true)
        { a with cursors := Function.update a.cursors id (some ⟨some (key name), 0⟩) }
  | notOpened {junk : Nat → Buffer} {name : List Byte} {id : Nat} {type : Word} : a.files (key name) = none →
      Step a (.openFound junk name id type) (.status false) a
  | closed {id : Nat} : Step a (.close id) .done { a with cursors := Function.update a.cursors id none }
  | sought {id : Nat} {c : Cursor} {position : Word} : a.cursors id = some c →
      Step a (.seek id position) .done
        { a with cursors := Function.update a.cursors id (some { c with position := position }) }
  | read {id : Nat} {junk into : Buffer} {off : Nat} {numBytes position : Word} {k c : List Byte} :
      a.cursors id = some ⟨some k, position⟩ → a.files k = some c →
      Step a (.read id junk into off numBytes)
        (.data (BitVec.ofNat 32 (window c numBytes position).length) (Bytes.blit into off (window c numBytes position)))
        { a with
          cursors := Function.update a.cursors id
            (some ⟨some k, position + BitVec.ofNat 32 (window c numBytes position).length⟩) }
  | readGone {id : Nat} {junk into into' : Buffer} {off : Nat} {numBytes position n : Word} :
      a.cursors id = some ⟨none, position⟩ →
      Step a (.read id junk into off numBytes) (.data n into')
        { a with cursors := Function.update a.cursors id (some ⟨none, position + n⟩) }
  | wrote {id : Nat} {junk : Nat → Buffer} {src : Buffer} {numBytes position : Word} {k c : List Byte} :
      a.cursors id = some ⟨some k, position⟩ → a.files k = some c →
      Step a (.write id junk src numBytes) (.count (BitVec.ofNat 32 (window c numBytes position).length))
        { a with
          files := Function.update a.files k
            (some (splice c (taken src (window c numBytes position).length) position))
          cursors := Function.update a.cursors id
            (some ⟨some k, position + BitVec.ofNat 32 (window c numBytes position).length⟩) }
  | readAt {id : Nat} {junk into : Buffer} {off : Nat} {numBytes position p : Word} {k c : List Byte} :
      a.cursors id = some ⟨some k, p⟩ → a.files k = some c →
      Step a (.readAt id junk into off numBytes position)
        (.data (BitVec.ofNat 32 (window c numBytes position).length) (Bytes.blit into off (window c numBytes position)))
        a
  | readAtGone {id : Nat} {junk into into' : Buffer} {off : Nat} {numBytes position p n : Word} :
      a.cursors id = some ⟨none, p⟩ → Step a (.readAt id junk into off numBytes position) (.data n into') a
  | wroteAt {id : Nat} {junk : Nat → Buffer} {src : Buffer} {numBytes position p : Word} {k c : List Byte} :
      a.cursors id = some ⟨some k, p⟩ → a.files k = some c →
      Step a (.writeAt id junk src numBytes position)
        (.count (BitVec.ofNat 32 (window c numBytes position).length))
        { a with
          files := Function.update a.files k
            (some (splice c (taken src (window c numBytes position).length) position)) }
  | rebooted : Step a .reboot .done { a with cursors := fun _ => none }

end Store

/-! ## The session -/

/-- `findFreeSlot`: the first empty slot of `openf` from 2 on, 10 if there is none.  `none` is a pointer that has
not been set. -/
def findFreeSlot (openf : Option (Nat → Option OpenFile)) : Option Nat :=
  openf.map (fun slots => ((List.range' 2 8).find? (fun i => (slots i).isNone)).getD 10)

/-- The two functions `Open`: the object that is returned, and the slots; there is no slot 10. -/
def openName (fs : FileSystem) (openf : Option (Nat → Option OpenFile)) (junk : Nat → Buffer) (name : List Byte)
    (type : Word) : Option (Option OpenFile × (Nat → Option OpenFile)) := do
  let directory ← fs.fetchDirectory junk
  let sector := Directory.find directory name
  let freeSlot ← findFreeSlot openf
  let slots ← openf
  if freeSlot = 10 then none
  else if sector.slt 0 then some (slots freeSlot, slots)
  else
    let file ← OpenFile.openSector fs.disk sector type
    some (some file, Function.update slots freeSlot (some file))

/-- **No file is opened by name**: the constructors leave `openf` unset. -/
theorem openName_unset (fs : FileSystem) (junk : Nat → Buffer) (name : List Byte) (type : Word) :
    openName fs none junk name type = none := by
  rw [openName]
  cases fs.fetchDirectory junk with
  | none => rfl
  | some directory => rfl

namespace Session

/-- A new object on the header that the directory names. -/
def openFound (fs : FileSystem) (junk : Nat → Buffer) (name : List Byte) (type : Word) : Option (Option Handle) := do
  let directory ← fs.fetchDirectory junk
  let sector := Directory.find directory name
  if sector.slt 0 then
    some none
  else
    let file ← OpenFile.openSector fs.disk sector type
    some (some ⟨file, sector, false⟩)

/-- The object at `id` after a call on it. -/
def setFile (st : Session) (id : Nat) (hd : Handle) (file : OpenFile) : Nat → Option Handle :=
  Function.update st.handles id (some { hd with file := file })

/-- One call; `none` is a failed `ASSERT`, an index outside of `dataSectors`, or an object that is not open. -/
def respond (st : Session) : StoreCall → Option (Reply × Session)
  | .create junk name initialSize =>
    (st.fs.create junk name initialSize).map (fun r => (.status r.1, { st with fs := r.2 }))
  | .remove junk name =>
    (st.fs.fetchDirectory junk).bind (fun directory =>
      (st.fs.remove junk name).map (fun r =>
        (.status r.1, ⟨r.2, if r.1 then markRemoved st.handles (Directory.find directory name) else st.handles⟩)))
  | .openFound junk name id type =>
    if (st.handles id).isSome then none
    else
      (openFound st.fs junk name type).map (fun opened =>
        match opened with
        | none => (.status false, st)
        | some hd => (.status true, { st with handles := Function.update st.handles id (some hd) }))
  | .close id => some (.done, { st with handles := Function.update st.handles id none })
  | .seek id position =>
    (st.handles id).map (fun hd => (.done, { st with handles := st.setFile id hd (hd.file.seek position) }))
  | .read id junk into off numBytes =>
    (st.handles id).bind (fun hd =>
      (OpenFile.read st.fs.disk hd.file junk into off numBytes).map (fun r =>
        (.data r.1 r.2.1, { st with handles := st.setFile id hd r.2.2 })))
  | .write id junk src numBytes =>
    (st.handles id).bind (fun hd =>
      (OpenFile.write st.fs.disk hd.file junk src numBytes).map (fun r =>
        (.count r.1, ⟨{ st.fs with disk := r.2.1 }, st.setFile id hd r.2.2⟩)))
  | .readAt id junk into off numBytes position =>
    (st.handles id).bind (fun hd =>
      (OpenFile.readAt st.fs.disk hd.file.hdr junk into off numBytes position).map (fun r =>
        (.data r.1 r.2, st)))
  | .writeAt id junk src numBytes position =>
    (st.handles id).bind (fun hd =>
      (OpenFile.writeAt st.fs.disk hd.file.hdr junk src numBytes position).map (fun r =>
        (.count r.1, { st with fs := { st.fs with disk := r.2 } })))
  | .reboot => (mount st.fs.disk).map (fun fs => (.done, ⟨fs, fun _ => none⟩))

/-- The calls that are made: the sizes of `InRange`, objects at a new address, proper requests on objects
that are open, and no write to a file that has been removed. -/
def MayCall (st : Session) : StoreCall → Prop
  | .create _ _ initialSize => 0 ≤ initialSize.toInt ∧ initialSize.toInt ≤ MaxFileSize
  | .remove _ _ => True
  | .openFound _ _ id _ => st.handles id = none
  | .close _ => True
  | .seek id _ => st.handles id ≠ none
  | .read id _ _ _ numBytes =>
    ∃ hd, st.handles id = some hd ∧ OpenFile.Proper hd.file.hdr numBytes hd.file.seekPosition
  | .write id _ _ numBytes =>
    ∃ hd, st.handles id = some hd ∧ hd.removed = false ∧
      OpenFile.Proper hd.file.hdr numBytes hd.file.seekPosition
  | .readAt id _ _ _ numBytes position =>
    ∃ hd, st.handles id = some hd ∧ OpenFile.Proper hd.file.hdr numBytes position
  | .writeAt id _ _ numBytes position =>
    ∃ hd, st.handles id = some hd ∧ hd.removed = false ∧ OpenFile.Proper hd.file.hdr numBytes position
  | .reboot => True

end Session

/-! ## The bytes of a file -/

/-- What the file with header `h` holds. -/
def bytesOf (disk : Disk) (h : FileHeader) : List Byte :=
  (List.range h.numBytes.toNat).map (fun v => (OpenFile.view h.sectors disk v).getD 0)

section Bytes

variable {h : FileHeader} {disk disk' : Disk} {numBytes position : Word}

theorem length_bytesOf (disk : Disk) (h : FileHeader) : (bytesOf disk h).length = h.numBytes.toNat := by
  rw [bytesOf, List.length_map, List.length_range]

theorem getElem?_bytesOf {v : Nat} (hv : v < h.numBytes.toNat) :
    (bytesOf disk h)[v]? = some ((OpenFile.view h.sectors disk v).getD 0) := by
  rw [bytesOf, List.getElem?_map, List.getElem?_range hv, Option.map_some]

/-- The sectors of the header hold the bytes. -/
theorem view_bytesOf (hc : h.Covers h.sectors) {v : Nat} (hv : v < h.numBytes.toNat) :
    OpenFile.view h.sectors disk v = (bytesOf disk h)[v]? := by
  have hpos : 0 < SectorSize := by decide
  have hlt : v / SectorSize < h.sectors.length := by
    rw [Nat.div_lt_iff_lt_mul hpos]
    exact Nat.lt_of_lt_of_le hv hc.numBytes
  have hview := OpenFile.view_eq h.sectors disk hlt (Nat.mod_lt v hpos) (Nat.div_add_mod' v SectorSize).symm
  rw [getElem?_bytesOf hv, hview, Option.getD_some]

theorem bytesOf_frame (hd : ∀ a, a / SectorSize ∈ h.sectors → disk' a = disk a) : bytesOf disk' h = bytesOf disk h := by
  have hview : OpenFile.view h.sectors disk' = OpenFile.view h.sectors disk :=
    funext (Paged.view_frame (by decide) hd)
  rw [bytesOf, hview, bytesOf]

theorem length_window (c : List Byte) (numBytes position : Word) :
    (window c numBytes position).length = min numBytes.toInt.toNat (c.length - position.toInt.toNat) := by
  rw [window, List.length_take, List.length_drop]

theorem getElem?_window {data : List Byte} {v : Nat} (hv : v < (window data numBytes position).length) :
    (window data numBytes position)[v]? = data[position.toInt.toNat + v]? := by
  rw [length_window] at hv
  rw [window, List.getElem?_take, if_pos (by omega), List.getElem?_drop]

theorem splice_nil (c : List Byte) (position : Word) : splice c [] position = c := by
  rw [splice, List.append_nil, List.length_nil, Nat.add_zero, List.take_append_drop]

theorem getElem?_splice {data l : List Byte} (hl : position.toInt.toNat + l.length ≤ data.length) (v : Nat) :
    (splice data l position)[v]? =
      if position.toInt.toNat ≤ v ∧ v < position.toInt.toNat + l.length then l[v - position.toInt.toNat]?
      else data[v]? := by
  have htake : (data.take position.toInt.toNat).length = position.toInt.toNat := by
    rw [List.length_take]
    omega
  rw [splice, List.append_assoc]
  by_cases h1 : v < position.toInt.toNat
  · rw [if_neg (by omega), List.getElem?_append_left (by omega), List.getElem?_take, if_pos h1]
  · rw [List.getElem?_append_right (by omega), htake]
    by_cases h2 : v < position.toInt.toNat + l.length
    · rw [if_pos ⟨by omega, h2⟩, List.getElem?_append_left (by omega)]
    · rw [if_neg (by omega), List.getElem?_append_right (by omega), List.getElem?_drop]
      congr 1
      omega

/-- A request with nothing to do. -/
theorem window_eq_nil {c : List Byte} (hlen : c.length = h.numBytes.toNat) (hsmall : h.numBytes.toNat < 2 ^ 31)
    (hr : (numBytes.sle 0 || h.numBytes.sle position) = true) : window c numBytes position = [] := by
  rw [← List.length_eq_zero_iff, length_window]
  have hint : h.numBytes.toInt = h.numBytes.toNat := BitVec.toInt_eq_toNat_of_lt (by omega)
  rcases OpenFile.rejects_iff.1 hr with hn | hp
  · omega
  · omega

/-- **`ReadAt`** reads the window. -/
theorem readAt_window (hc : h.Covers h.sectors) (hp : OpenFile.Proper h numBytes position) (disk : Disk)
    (junk into : Buffer) (off : Nat) :
    OpenFile.readAt disk h junk into off numBytes position =
      some (BitVec.ofNat 32 (window (bytesOf disk h) numBytes position).length,
        Bytes.blit into off (window (bytesOf disk h) numBytes position)) := by
  have hlen := OpenFile.covers_numBytes hc
  obtain hnone | ⟨n, p, rfl, rfl, hn, hlt, hsum⟩ := hp.cases hc
  · rw [window_eq_nil (length_bytesOf disk h) (by omega) hnone]
    refine (if_pos hnone).trans ?_
    congr 2
    funext a
    rw [Bytes.blit_apply_of_not_mem]
    rw [List.length_nil]
    omega
  · obtain ⟨into', hread, hover⟩ := OpenFile.readAt_spec hc disk junk into off hn hlt hsum
    have hwin : (window (bytesOf disk h) (BitVec.ofNat 32 n) (BitVec.ofNat 32 p)).length =
        min n (h.numBytes.toNat - p) := by
      rw [length_window, length_bytesOf, CInt.toInt_ofNat (by omega), CInt.toInt_ofNat (by omega), Int.toNat_natCast,
        Int.toNat_natCast]
    rw [hread, hwin]
    congr 2
    funext a
    by_cases ha : off ≤ a ∧ a < off + min n (h.numBytes.toNat - p)
    · have hin := hover.inside a ha
      rw [view_bytesOf hc (by omega)] at hin
      rw [Bytes.blit_apply_of_mem into ha.1 (by rw [hwin]; exact ha.2)]
      apply Option.some.inj
      rw [hin, ← List.getElem?_eq_getElem, getElem?_window (by rw [hwin]; omega), CInt.toInt_ofNat (by omega),
        Int.toNat_natCast]
    · rw [Bytes.blit_apply_of_not_mem into (by rw [hwin]; exact ha)]
      exact Option.some.inj (hover.outside a ha)

/-- **`WriteAt`** replaces the window, and changes the sectors of the header only. -/
theorem writeAt_splice (hc : h.Covers h.sectors) (hnd : h.sectors.Nodup) (hp : OpenFile.Proper h numBytes position)
    (disk : Disk) (junk : Nat → Buffer) (src : Buffer) :
    ∃ disk', OpenFile.writeAt disk h junk src numBytes position =
        some (BitVec.ofNat 32 (window (bytesOf disk h) numBytes position).length, disk') ∧
      bytesOf disk' h =
        splice (bytesOf disk h) (taken src (window (bytesOf disk h) numBytes position).length) position ∧
      ∀ a, a / SectorSize ∉ h.sectors → disk' a = disk a := by
  have hlen := OpenFile.covers_numBytes hc
  obtain hnone | ⟨n, p, rfl, rfl, hn, hlt, hsum⟩ := hp.cases hc
  · rw [window_eq_nil (length_bytesOf disk h) (by omega) hnone]
    exact ⟨disk, if_pos hnone, (splice_nil _ _).symm, fun _ _ => rfl⟩
  · obtain ⟨disk', hwrite, hin, hout, hframe⟩ := OpenFile.writeAt_spec hc hnd disk junk src hn hlt hsum
    have hpos : (BitVec.ofNat 32 p).toInt.toNat = p := by
      rw [CInt.toInt_ofNat (by omega), Int.toNat_natCast]
    have hwin : (window (bytesOf disk h) (BitVec.ofNat 32 n) (BitVec.ofNat 32 p)).length =
        min n (h.numBytes.toNat - p) := by
      rw [length_window, length_bytesOf, CInt.toInt_ofNat (by omega), hpos, Int.toNat_natCast]
    refine ⟨disk', by rw [hwrite, hwin], ?_, hframe⟩
    have htaken : (taken src (min n (h.numBytes.toNat - p))).length = min n (h.numBytes.toNat - p) := by
      rw [taken, List.length_map, List.length_range]
    have hfit : (BitVec.ofNat 32 p).toInt.toNat + (taken src (min n (h.numBytes.toNat - p))).length ≤
        (bytesOf disk h).length := by
      rw [hpos, htaken, length_bytesOf]
      omega
    rw [hwin]
    apply List.ext_getElem?
    intro v
    rw [getElem?_splice hfit, hpos, htaken]
    by_cases hv : v < h.numBytes.toNat
    · rw [← view_bytesOf hc hv, ← view_bytesOf hc hv]
      by_cases hmem : p ≤ v ∧ v < p + min n (h.numBytes.toNat - p)
      · rw [if_pos hmem, hin v hmem.1 hmem.2, taken, List.getElem?_map, List.getElem?_range (by omega),
          Option.map_some]
      · rw [if_neg hmem, hout v hv hmem]
    · rw [if_neg (by omega), List.getElem?_eq_none (by rw [length_bytesOf]; omega),
        List.getElem?_eq_none (by rw [length_bytesOf]; omega)]

end Bytes

end FileSystem

end Nachos
