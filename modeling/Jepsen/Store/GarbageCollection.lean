/-
# What is left when garbage is collected

The file that takes the place of another one has the root and all blocks that it leads to,
byte for byte, and an index of them. Nothing else can be read from it, and it is a file like
any other for the sessions that follow.
-/

import Jepsen.Store.Copying
import Jepsen.Store.CrashConsistency

namespace Jepsen.Store

open Jepsen.Library FileWrite

universe u

variable {D : Type u} {decode : BlockType → List Byte → Option D}

/-! ## Blocks byte for byte -/

/-- The block that something is stored as. -/
def Stored.Is : Stored → BlockType → List Byte → Prop
  | .index, blockType, data =>
      blockType = .blockIndex ∧ ∃ index : BlockIndex, data = blockIndexData index ∧ index.Fits ∧
        ∀ id offset, index.blocks.lookup id = some (some offset) → IsLong offset
  | .block blockType data, blockType', data' =>
      blockType' = blockType ∧ data' = data ∧ blockType ≠ .blockIndex

theorem Stored.at_iff {file : File} {offset : ℕ} {stored : Stored} :
    stored.At file offset ↔
      ∃ blockType data, stored.Is blockType data ∧ Intact file offset blockType data := by
  cases stored with
  | index =>
    constructor
    · rintro ⟨index, hindex⟩
      exact ⟨_, _, ⟨rfl, index, rfl, hindex.fits, hindex.offsets⟩, hindex.intact⟩
    · rintro ⟨_, _, ⟨rfl, index, rfl, hfits, hoffsets⟩, hintact⟩
      exact ⟨index, hintact, hfits, hoffsets⟩
  | block blockType data =>
    constructor
    · rintro ⟨hne, hintact⟩
      exact ⟨_, _, ⟨rfl, rfl, hne⟩, hintact⟩
    · rintro ⟨_, _, ⟨rfl, rfl, hne⟩, hintact⟩
      exact ⟨hne, hintact⟩

/-- A block with its header. -/
theorem Intact.readAt_all {file : File} {offset : ℕ} {blockType : BlockType} {data : List Byte}
    (hintact : Intact file offset blockType data) :
    file.readAt offset (blockHeaderSize + data.length) = headerFor blockType data ++ data := by
  have hheader := hintact.header
  have hbody := hintact.body
  unfold File.readAt at hheader hbody ⊢
  rw [List.take_add, hheader, List.drop_drop, hbody]

theorem intact_of_readAt_all {file : File} {offset : ℕ} {blockType : BlockType} {data : List Byte}
    (hafter : firstBlockOffset ≤ offset) (hsize : data.length < 2 ^ 31)
    (hread : file.readAt offset (blockHeaderSize + data.length) =
      headerFor blockType data ++ data) :
    Intact file offset blockType data := by
  have hheaderSize : blockHeaderSize = 28 := rfl
  have hlength := congrArg List.length hread
  rw [List.length_append, length_headerFor] at hlength
  have hwithin := hlength
  unfold File.readAt at hwithin
  rw [List.length_take, List.length_drop] at hwithin
  have hheader := @readAt_part file offset (blockHeaderSize + data.length) 0 blockHeaderSize
    (by omega)
  have hbody := @readAt_part file offset (blockHeaderSize + data.length) blockHeaderSize
    data.length le_rfl
  refine ⟨hafter, by omega, ?_, ?_, hsize⟩
  · rw [Nat.add_zero, hread] at hheader
    rw [← hheader]
    exact List.take_left' (length_headerFor blockType data)
  · rw [hread] at hbody
    rw [← hbody]
    unfold File.readAt
    rw [List.drop_left' (length_headerFor blockType data), List.take_length]

/-! ## Extents -/

/-- What an id stands for is at the extent of its block. -/
def Extent.Holds (file : File) (c : Contents) (e : Extent) : Prop :=
  ∃ stored blockType data, c.blocks e.id = some (some stored) ∧ stored.Is blockType data ∧
    Intact file e.offset blockType data ∧ e.length = blockHeaderSize + data.length

/-- The bytes of a block. -/
def Extent.bytes (file : File) (e : Extent) : List Byte := file.readAt e.offset e.length

theorem Extent.Holds.length_bytes {file : File} {c : Contents} {e : Extent}
    (hholds : e.Holds file c) : (e.bytes file).length = e.length := by
  obtain ⟨stored, blockType, data, -, -, hintact, hlength⟩ := hholds
  unfold Extent.bytes
  rw [hlength, hintact.readAt_all, List.length_append, length_headerFor]

theorem extent_of_lookup {h : Handle} {id : ℤ} {offset : ℕ} {header : List Byte}
    (hlookup : h.index.blocks.lookup id = some (some (offset : ℤ)))
    (hheader : readBlockHeader h.file offset = .ok header) :
    extent h id = .ok ⟨id, offset, blockHeaderLength header⟩ := by
  have hlookup' : h.index.blocks.lookup id = some (some (Int.ofNat offset)) := hlookup
  unfold extent
  rw [hlookup']
  dsimp only
  rw [hheader]

theorem exists_extent {h : Handle} {c : Contents} (hrep : Represents h.file h.index c) {id : ℤ}
    {stored : Stored} (hblock : c.blocks id = some (some stored)) :
    ∃ e, extent h id = .ok e ∧ e.id = id ∧ e.Holds h.file c := by
  have hmapped := hrep.mapped id
  rw [hblock] at hmapped
  rcases hlookup : h.index.blocks.lookup id with _ | _ | offset <;> rw [hlookup] at hmapped
  · exact hmapped.elim
  · exact hmapped.elim
  · obtain ⟨n, rfl, hstored⟩ := hmapped
    obtain ⟨blockType, data, his, hintact⟩ := Stored.at_iff.mp hstored
    have hheader : readBlockHeader h.file n = .ok (headerFor blockType data) := by
      unfold readBlockHeader
      dsimp only
      rw [hintact.header, length_headerFor, if_pos rfl]
    have hlength : blockHeaderLength (headerFor blockType data) = blockHeaderSize + data.length :=
      blockHeaderLength_headerOf (lt_of_int hintact.size) _ _
    refine ⟨⟨id, n, blockHeaderSize + data.length⟩, ?_, rfl, stored, blockType, data, hblock, his,
      hintact, rfl⟩
    rw [extent_of_lookup hlookup hheader, hlength]

theorem exists_extents {h : Handle} {c : Contents} (hrep : Represents h.file h.index c)
    {ids : List ℤ} (hall : ∀ id ∈ ids, ∃ stored, c.blocks id = some (some stored)) :
    ∃ es, extents h ids = .ok es ∧ es.map Extent.id = ids ∧ ∀ e ∈ es, e.Holds h.file c := by
  induction ids with
  | nil => exact ⟨[], rfl, rfl, fun e he => absurd he List.not_mem_nil⟩
  | cons id ids ih =>
    obtain ⟨⟨stored, hblock⟩, hrest⟩ := List.forall_mem_cons.mp hall
    obtain ⟨e, he, hid, hholds⟩ := exists_extent hrep hblock
    obtain ⟨es, hes, hids, hholdsAll⟩ := ih hrest
    refine ⟨e :: es, ?_, ?_, List.forall_mem_cons.mpr ⟨hholds, hholdsAll⟩⟩
    · unfold extents
      rw [he]
      dsimp only
      rw [hes]
    · rw [List.map_cons, hid, hids]

theorem perm_rootFirst (root : ℤ) (es : List Extent) : (rootFirst root es).Perm es := by
  unfold rootFirst
  refine ((List.perm_insertionSort _ _).append_left _).trans ?_
  have hperm := List.filter_append_perm (fun e : Extent => decide (e.id = root)) es
  simpa only [decide_not] using hperm

/-! ## The index of what is copied -/

theorem lookup_layOut_of_notMem {root id : ℤ} {offset : ℕ} {es : List Extent} {index : BlockIndex}
    (hid : id ∉ es.map Extent.id) :
    (layOut root offset es index).blocks.lookup id = index.blocks.lookup id := by
  induction es generalizing offset index with
  | nil => rfl
  | cons e es ih =>
    rw [List.map_cons, List.mem_cons, not_or] at hid
    rw [layOut, ih hid.2]
    exact AList.lookup_insert_ne hid.1

/-- A block is where those before it end. -/
theorem lookup_layOut {root : ℤ} {offset : ℕ} {before after : List Extent} {e : Extent}
    {index : BlockIndex} (hnodup : ((before ++ e :: after).map Extent.id).Nodup) :
    (layOut root offset (before ++ e :: after) index).blocks.lookup e.id =
      some (some ((offset + (before.map Extent.length).sum : ℕ) : ℤ)) := by
  induction before generalizing offset index with
  | nil =>
    rw [List.nil_append, List.map_cons, List.nodup_cons] at hnodup
    rw [List.nil_append, layOut, lookup_layOut_of_notMem hnodup.1]
    exact AList.lookup_insert _
  | cons first before ih =>
    rw [List.cons_append, List.map_cons, List.nodup_cons] at hnodup
    rw [List.cons_append, layOut, ih hnodup.2, List.map_cons, List.sum_cons, Nat.add_assoc]

theorem root_layOut {root : ℤ} {offset : ℕ} {es : List Extent} {index : BlockIndex}
    (hroot : index.root = some root ∨ root ∈ es.map Extent.id) :
    (layOut root offset es index).root = some root := by
  induction es generalizing offset index with
  | nil => exact hroot.resolve_right List.not_mem_nil
  | cons e es ih =>
    rw [layOut]
    refine ih ?_
    by_cases heq : root = e.id
    · exact Or.inl (by rw [if_pos heq, heq])
    · dsimp only
      rw [if_neg heq]
      refine hroot.imp_right fun hmem => ?_
      exact (List.mem_cons.mp hmem).resolve_left heq

theorem transfer_eq {file : File} {es : List Extent}
    (hlength : ∀ e ∈ es, (e.bytes file).length = e.length) (position : ℕ) (w : Session) :
    transfer file position es w =
      .ok (w.writeAll (ofPieces position (es.map (Extent.bytes file)))) := by
  induction es generalizing position w with
  | nil => rfl
  | cons e es ih =>
    obtain ⟨he, hrest⟩ := List.forall_mem_cons.mp hlength
    unfold Extent.bytes at he
    unfold transfer
    dsimp only
    rw [if_pos he]
    exact ih hrest _ _

theorem length_mappings {index : BlockIndex} {ids : List ℤ} (hnodup : ids.Nodup)
    (hids : ∀ id, id ∈ ids ↔ ∃ offset, index.blocks.lookup id = some (some offset)) :
    index.mappings.length = ids.length := by
  have hperm : (index.mappings.map Prod.fst).Perm ids := by
    rw [List.perm_ext_iff_of_nodup (nodup_mappings index) hnodup]
    intro id
    rw [hids, List.mem_map]
    constructor
    · rintro ⟨⟨id', offset⟩, hmem, rfl⟩
      exact ⟨offset, mem_mappings.mp hmem⟩
    · rintro ⟨offset, hlookup⟩
      exact ⟨(id, offset), mem_mappings.mpr hlookup, rfl⟩
  rw [← hperm.length_eq, List.length_map]

/-! ## The file that is written -/

/-- What there is before blocks are copied to a new file. -/
def blankWriter : Session where
  handle :=
    { file := applyAll [] headerWrites
      version := some currentVersion
      written := true }
  journal := headerWrites

theorem prepWrite_on_nil : (Session.on []).prepWrite = (.ok (), blankWriter) := rfl

/-- Where the blocks are copied to. -/
def startOf (blocks : List Extent) : ℕ := firstBlockOffset + blockIndexSize blocks.length

/-- The writer when its index is written. -/
def layoutWriter (root : ℤ) (blocks : List Extent) : Session :=
  { blankWriter with
    handle :=
      { blankWriter.handle with index := layOut root (startOf blocks) blocks ⟨none, ∅⟩ } }

theorem nextBlockOffset_layoutWriter (root : ℤ) (blocks : List Extent) :
    nextBlockOffset (layoutWriter root blocks).handle = firstBlockOffset := by
  change max (applyAll [] headerWrites).length firstBlockOffset = firstBlockOffset
  decide

theorem mem_ids_iff {root id : ℤ} {blocks : List Extent}
    (hnodup : (blocks.map Extent.id).Nodup) :
    id ∈ blocks.map Extent.id ↔
      ∃ offset, (layoutWriter root blocks).handle.index.blocks.lookup id = some (some offset) := by
  constructor
  · intro hmem
    obtain ⟨e, he, rfl⟩ := List.mem_map.mp hmem
    obtain ⟨before, after, rfl⟩ := List.append_of_mem he
    exact ⟨_, lookup_layOut hnodup⟩
  · rintro ⟨offset, hlookup⟩
    by_contra hnot
    have hnone := (lookup_layOut_of_notMem hnot).symm.trans hlookup
    cases hnone

theorem length_blockIndexData_layoutWriter {root : ℤ} {blocks : List Extent}
    (hnodup : (blocks.map Extent.id).Nodup) :
    blockHeaderSize + (blockIndexData (layoutWriter root blocks).indexWithItself).length =
      blockIndexSize blocks.length := by
  have hfresh : freshId (layoutWriter root blocks).handle.index ∉ blocks.map Extent.id := by
    intro hmem
    obtain ⟨offset, hlookup⟩ := (mem_ids_iff hnodup).mp hmem
    refine freshId_notMem (layoutWriter root blocks).handle.index (AList.mem_keys.mp ?_)
    exact AList.lookup_isSome.mp (by rw [hlookup]; rfl)
  have hids : ∀ id, id ∈ freshId (layoutWriter root blocks).handle.index :: blocks.map Extent.id ↔
      ∃ offset, (layoutWriter root blocks).indexWithItself.blocks.lookup id =
        some (some offset) := by
    intro id
    rw [List.mem_cons, lookup_indexWithItself]
    by_cases heq : id = freshId (layoutWriter root blocks).handle.index
    · rw [if_pos heq]
      exact ⟨fun _ => ⟨_, rfl⟩, fun _ => Or.inl heq⟩
    · rw [if_neg heq, or_iff_right heq]
      exact mem_ids_iff hnodup
  rw [length_blockIndexData, length_mappings (List.nodup_cons.mpr ⟨hfresh, hnodup⟩) hids,
    List.length_cons, List.length_map, Nat.mul_comm]
  rfl

/-- The file when its index was written. -/
def layoutFile (root : ℤ) (blocks : List Extent) : File :=
  (layoutWriter root blocks).indexedFile []

theorem length_layoutFile {root : ℤ} {blocks : List Extent}
    (hnodup : (blocks.map Extent.id).Nodup)
    (hsize : (blockIndexData (layoutWriter root blocks).indexWithItself).length < 2 ^ 31) :
    (layoutFile root blocks).length = startOf blocks := by
  have hlength := @length_blockIndexData_layoutWriter root blocks hnodup
  have hoffset := nextBlockOffset_layoutWriter root blocks
  have hfirst : firstBlockOffset = 18 := rfl
  have hpointer : blockIndexOffsetOffset + blockOffsetSize = firstBlockOffset := rfl
  have hwithin := (intact_indexedFile [] hsize).within
  rw [hoffset] at hwithin
  have hends : ∀ w ∈ ([] ++ ((layoutWriter root blocks).indexBlockWrites ++
      [(layoutWriter root blocks).pointerWrite])),
      w.position + w.bytes.length ≤ startOf blocks := by
    intro w hw
    rw [List.nil_append, List.mem_append, List.mem_singleton, Session.indexBlockWrites,
      List.mem_cons, List.mem_singleton, hoffset] at hw
    unfold startOf
    rcases hw with (rfl | rfl) | rfl
    · dsimp only
      rw [length_headerFor]
      omega
    · dsimp only
      omega
    · rw [length_pointerWrite]
      change blockIndexOffsetOffset + blockOffsetSize ≤ _
      omega
  have hblank : (layoutWriter root blocks).handle.file.length ≤ startOf blocks := by
    unfold nextBlockOffset at hoffset
    unfold startOf
    omega
  refine le_antisymm ?_ ?_
  · have hle := @length_applyAll_le (layoutWriter root blocks).handle.file _ (startOf blocks) hends
    rw [max_eq_right hblank] at hle
    exact hle
  · unfold startOf layoutFile
    omega

/-- A writer with an index in its file. -/
theorem writeBlockIndex_layoutWriter {root : ℤ} {blocks : List Extent}
    (hsize : (blockIndexData (layoutWriter root blocks).indexWithItself).length < 2 ^ 31) :
    (layoutWriter root blocks).writeBlockIndex =
      (.ok (),
        { handle :=
            { (layoutWriter root blocks).handle with
              file := layoutFile root blocks
              index := (layoutWriter root blocks).indexWithItself }
          journal := (layoutWriter root blocks).journal ++
            ([] ++ ((layoutWriter root blocks).indexBlockWrites ++
              [(layoutWriter root blocks).pointerWrite])) }) :=
  Prod.ext rfl (@step_blockIndex Unit (fun _ _ => none) (layoutWriter root blocks) (Or.inr rfl)
    (fun _ => rfl) hsize)

/-- The file that is written. -/
def copiedFile (file : File) (root : ℤ) (blocks : List Extent) : File :=
  applyAll (layoutFile root blocks) (ofPieces (startOf blocks) (blocks.map (Extent.bytes file)))

/-- Copying goes on when the index was written. -/
theorem copyBlocks_of {file : File} {root : ℤ} {blocks : List Extent} {w w' w'' : Session}
    (hlayout : w' =
      { w with
        handle :=
          { w.handle with
            index := layOut root (firstBlockOffset + blockIndexSize blocks.length) blocks
              ⟨none, ∅⟩ } })
    (hoffset : nextBlockOffset w'.handle = firstBlockOffset)
    (hok : w'.writeBlockIndex = (.ok (), w'')) :
    copyBlocks file root blocks w =
      if nextBlockOffset w''.handle = firstBlockOffset + blockIndexSize blocks.length then
        transfer file (firstBlockOffset + blockIndexSize blocks.length) blocks w''
      else .error .unexpectedBlockIndexSize := by
  subst hlayout
  unfold copyBlocks
  dsimp only
  dsimp only at hoffset hok
  rw [if_pos hoffset, hok]

theorem copyBlocks_blankWriter {file : File} {root : ℤ} {blocks : List Extent}
    (hlength : ∀ e ∈ blocks, (e.bytes file).length = e.length) :
    copyBlocks file root blocks blankWriter =
      if nextBlockOffset (layoutWriter root blocks).writeBlockIndex.2.handle = startOf blocks then
        .ok ((layoutWriter root blocks).writeBlockIndex.2.writeAll
          (ofPieces (startOf blocks) (blocks.map (Extent.bytes file))))
      else .error .unexpectedBlockIndexSize := by
  have hok : (layoutWriter root blocks).writeBlockIndex =
      (.ok (), (layoutWriter root blocks).writeBlockIndex.2) := Prod.ext rfl rfl
  rw [copyBlocks_of rfl (nextBlockOffset_layoutWriter root blocks) hok, transfer_eq hlength]
  rfl

/-- The index of what was copied, whatever its size is. -/
theorem index_copyBlocks {file : File} {root : ℤ} {blocks : List Extent} {w : Session}
    (hlength : ∀ e ∈ blocks, (e.bytes file).length = e.length)
    (hcopy : copyBlocks file root blocks blankWriter = .ok w) :
    w.handle.index = (layoutWriter root blocks).indexWithItself := by
  rw [copyBlocks_blankWriter hlength] at hcopy
  split_ifs at hcopy with hstart
  cases hcopy
  rw [Session.writeAll_eq, Session.index_extend]
  exact index_writeBlockIndexAt _ _

/-- Blocks that are there are copied. -/
theorem copyBlocks_eq {file : File} {root : ℤ} {blocks : List Extent}
    (hnodup : (blocks.map Extent.id).Nodup)
    (hlength : ∀ e ∈ blocks, (e.bytes file).length = e.length)
    (hsize : (blockIndexData (layoutWriter root blocks).indexWithItself).length < 2 ^ 31) :
    ∃ w, copyBlocks file root blocks blankWriter = .ok w ∧
      w.handle.file = copiedFile file root blocks := by
  have hwrite := writeBlockIndex_layoutWriter hsize
  have hstart : nextBlockOffset (layoutWriter root blocks).writeBlockIndex.2.handle =
      startOf blocks := by
    rw [hwrite]
    unfold nextBlockOffset
    dsimp only
    rw [length_layoutFile hnodup hsize]
    exact max_eq_left (Nat.le_add_right _ _)
  refine ⟨_, (copyBlocks_blankWriter hlength).trans (if_pos hstart), ?_⟩
  rw [Session.writeAll_eq, hwrite]
  rfl

/-! ## What the file that is written stands for -/

theorem length_flatten_bytes {file : File} {es : List Extent}
    (hlength : ∀ e ∈ es, (e.bytes file).length = e.length) :
    (es.map (Extent.bytes file)).flatten.length = (es.map Extent.length).sum := by
  rw [List.length_flatten, List.map_map]
  exact congrArg List.sum (List.map_congr_left hlength)

/-- A block is in the file that is written, byte for byte. -/
theorem stored_at_copied {file : File} {c : Contents} {root : ℤ} {before after : List Extent}
    {e : Extent} (hholds : ∀ e' ∈ before ++ e :: after, e'.Holds file c) :
    ∃ stored, c.blocks e.id = some (some stored) ∧
      stored.At (copiedFile file root (before ++ e :: after))
        (startOf (before ++ e :: after) + (before.map Extent.length).sum) := by
  obtain ⟨stored, blockType, data, hblock, his, hintact, hlength⟩ :=
    hholds e (List.mem_append_right _ List.mem_cons_self)
  have hbefore : ∀ e' ∈ before, (e'.bytes file).length = e'.length :=
    fun e' he' => (hholds e' (List.mem_append_left _ he')).length_bytes
  have hbytes : e.bytes file = headerFor blockType data ++ data := by
    unfold Extent.bytes
    rw [hlength]
    exact hintact.readAt_all
  have hread := readAt_applyAll_ofPieces (layoutFile root (before ++ e :: after))
    (startOf (before ++ e :: after)) (before.map (Extent.bytes file))
    (after.map (Extent.bytes file)) (e.bytes file)
  rw [← List.map_cons, ← List.map_append, length_flatten_bytes hbefore, hbytes, List.length_append,
    length_headerFor] at hread
  refine ⟨stored, hblock, Stored.at_iff.mpr ⟨blockType, data, his, ?_⟩⟩
  refine intact_of_readAt_all ?_ hintact.size hread
  unfold startOf
  omega

section Represents

variable {file : File} {c live : Contents} {root : ℤ} {blocks : List Extent}

/-- Some contents are those of some blocks. -/
structure LiveBlocks (file : File) (c live : Contents) (root : ℤ) (blocks : List Extent) :
    Prop where
  nodup : (blocks.map Extent.id).Nodup
  holds : ∀ e ∈ blocks, e.Holds file c
  root_mem : root ∈ blocks.map Extent.id
  root : live.root = some root
  kept : ∀ id ∈ blocks.map Extent.id, live.blocks id = c.blocks id
  dropped : ∀ id, id ∉ blocks.map Extent.id → live.blocks id = none

theorem LiveBlocks.represents_layout (hlive : LiveBlocks file c live root blocks) :
    Represents (copiedFile file root blocks) (layoutWriter root blocks).handle.index live where
  root := (root_layOut (Or.inr hlive.root_mem)).trans hlive.root.symm
  mapped id := by
    by_cases hmem : id ∈ blocks.map Extent.id
    · rw [hlive.kept id hmem]
      obtain ⟨e, he, rfl⟩ := List.mem_map.mp hmem
      obtain ⟨before, after, rfl⟩ := List.append_of_mem he
      obtain ⟨stored, hblock, hat⟩ := @stored_at_copied file c root before after e hlive.holds
      have hlookup : (layoutWriter root (before ++ e :: after)).handle.index.blocks.lookup e.id =
          _ := lookup_layOut hlive.nodup
      rw [hblock, hlookup]
      exact ⟨_, rfl, hat⟩
    · have hlookup : (layoutWriter root blocks).handle.index.blocks.lookup id = none :=
        lookup_layOut_of_notMem hmem
      rw [hlive.dropped id hmem, hlookup]
      trivial

/-- Nothing is reserved among what is copied. -/
theorem LiveBlocks.put_eq_saved (hlive : LiveBlocks file c live root blocks) (id : ℤ) :
    live.put id (some .index) = (live.put id (some .index)).saved := by
  have hsaved : ∀ id', (live.put id (some .index)).blocks id' =
      ((live.put id (some .index)).blocks id').bind fun stored => stored.map some := by
    intro id'
    unfold Contents.put
    dsimp only
    rw [Function.update_apply]
    split_ifs with heq
    · rfl
    · by_cases hmem : id' ∈ blocks.map Extent.id
      · rw [hlive.kept id' hmem]
        obtain ⟨e, he, rfl⟩ := List.mem_map.mp hmem
        obtain ⟨stored, -, -, hblock, -⟩ := hlive.holds e he
        rw [hblock]
        rfl
      · rw [hlive.dropped id' hmem]
        rfl
  unfold Contents.saved
  exact congrArg (Contents.mk live.root) (funext hsaved)

theorem copied_spares (file : File) {root : ℤ} {blocks : List Extent}
    (hlength : (layoutFile root blocks).length = startOf blocks) {w : FileWrite}
    (hw : w ∈ ofPieces (startOf blocks) (blocks.map (Extent.bytes file))) :
    (layoutFile root blocks).length ≤ w.position := by
  rw [hlength]
  exact le_position_of_mem_ofPieces hw

theorem LiveBlocks.committed (hlive : LiveBlocks file c live root blocks)
    (hfits : (layoutWriter root blocks).indexWithItself.Fits)
    (hfile : (copiedFile file root blocks).length < 2 ^ 63) :
    Committed (copiedFile file root blocks)
      (live.put (freshId (layoutWriter root blocks).handle.index) (some .index)) := by
  have hsize := length_blockIndexData_lt hfits
  have hlength := length_layoutFile hlive.nodup hsize
  have hoffset := nextBlockOffset_layoutWriter root blocks
  have hread : ∀ position size, position + size ≤ firstBlockOffset →
      (copiedFile file root blocks).readAt position size =
        (layoutFile root blocks).readAt position size := by
    intro position size hle
    have hstart : position + size ≤ (layoutFile root blocks).length := by
      rw [hlength]
      exact hle.trans (Nat.le_add_right _ _)
    exact readAt_applyAll hstart fun w hw =>
      Or.inl (hstart.trans (copied_spares file hlength hw))
  have hheader : blockIndexOffsetOffset ≤
      (applyAll (layoutWriter root blocks).handle.file []).length :=
    le_length_of_readAt (putInt_ne_nil _) (readAt_headerWrites []).2
  have hlayout := hlive.represents_layout
  have hindex : IndexAt (copiedFile file root blocks) firstBlockOffset
      (layoutWriter root blocks).indexWithItself := by
    have hintact := intact_indexedFile [] hsize
    rw [hoffset] at hintact
    refine ⟨hintact.applyAll fun w hw => Or.inl (copied_spares file hlength hw), hfits,
      fun id offset hlookup => ?_⟩
    rw [lookup_indexWithItself, hoffset] at hlookup
    split_ifs at hlookup with heq
    · cases hlookup
      constructor <;> decide
    · exact hlayout.isLong hfile hlookup
  have hmapped : Mapped (copiedFile file root blocks) (some (some (firstBlockOffset : ℤ)))
      (some (some .index)) := ⟨firstBlockOffset, rfl, _, hindex⟩
  have hlookup := lookup_indexWithItself (layoutWriter root blocks)
  rw [hoffset] at hlookup
  have hpointer := readAt_pointer (layoutWriter root blocks) []
  rw [hoffset] at hpointer
  exact
    { magic := ((hread _ _ (by decide)).trans (readAt_indexedFile hheader (by decide))).trans
        (readAt_headerWrites []).1
      version := ((hread _ _ (by decide)).trans (readAt_indexedFile hheader (by decide))).trans
        (readAt_headerWrites []).2
      pointed :=
        ⟨firstBlockOffset, _, _, ⟨by decide, by decide⟩,
          (hread _ _ le_rfl).trans hpointer, hindex, hlayout.put rfl hlookup hmapped,
          hlive.put_eq_saved _⟩ }

end Represents

/-! ## Collecting garbage -/

theorem foldl_max_le {l : List ℤ} {start limit : ℤ} (hstart : start ≤ limit)
    (hall : ∀ id ∈ l, id ≤ limit) : l.foldl max start ≤ limit := by
  induction l generalizing start with
  | nil => exact hstart
  | cons first l ih =>
    rw [List.forall_mem_cons] at hall
    exact ih (max_le hstart hall.1) hall.2

/-- An index knows itself under its last id. -/
theorem freshId_indexWithItself (s : Session) :
    freshId s.indexWithItself = freshId s.handle.index + 1 := by
  have hkeys : ∀ id, id ∈ s.indexWithItself.blocks.keys ↔
      id = freshId s.handle.index ∨ id ∈ s.handle.index.blocks.keys := by
    intro id
    rw [← AList.mem_keys, ← AList.mem_keys, ← AList.lookup_isSome, ← AList.lookup_isSome,
      lookup_indexWithItself]
    by_cases heq : id = freshId s.handle.index
    · rw [if_pos heq]
      exact ⟨fun _ => Or.inl heq, fun _ => rfl⟩
    · rw [if_neg heq, or_iff_right heq]
  have hlt := lt_freshId ((hkeys _).mpr (Or.inl rfl))
  have hle : ∀ id ∈ s.indexWithItself.blocks.keys, id ≤ freshId s.handle.index := by
    intro id hid
    cases (hkeys id).mp hid with
    | inl heq => exact heq.le
    | inr hold => exact (lt_freshId hold).le
  refine le_antisymm ?_ hlt
  generalize freshId s.handle.index = limit at hle hkeys
  unfold freshId
  cases hcases : s.indexWithItself.blocks.keys with
  | nil =>
    have hmem := (hkeys limit).mpr (Or.inl rfl)
    rw [hcases] at hmem
    exact absurd hmem List.not_mem_nil
  | cons first ids =>
    rw [hcases, List.forall_mem_cons] at hle
    dsimp only
    have hmax := foldl_max_le hle.1 hle.2
    omega

section Collect

variable {refs : References D} {order : SetOrder ℤ} {depth : ℕ} {c : Contents}

/-- References are those of the contents that an index stands for. -/
theorem ofBlock_eq {h : Handle} (hrep : Represents h.file h.index c) :
    refs.ofBlock decode h = c.references decode refs := by
  funext id
  have hanswers := (@Represents.serves D decode h c hrep).blocks id
  unfold References.ofBlock Contents.references
  generalize c.blocks id = stored at hanswers
  rcases stored with _ | _ | _ | ⟨blockType, data⟩
  · rw [show lookupBlock decode h id = _ from hanswers]
  · rw [show lookupBlock decode h id = _ from hanswers]
  · obtain ⟨index, hindex⟩ := hanswers
    rw [hindex]
    rfl
  · rw [show lookupBlock decode h id = _ from hanswers]
    dsimp only
    cases decode blockType data with
    | none => rfl
    | some d => rfl

theorem exists_stored {id : ℤ} {ids : List ℤ} (hids : c.references decode refs id = .ok ids) :
    ∃ stored, c.blocks id = some (some stored) := by
  unfold Contents.references at hids
  rcases hblock : c.blocks id with _ | _ | stored
  · rw [hblock] at hids
    cases hids
  · rw [hblock] at hids
    cases hids
  · exact ⟨stored, rfl⟩

/-- What is found are the live ids. -/
theorem mem_insert_iff_live {root : ℤ} (hroot : c.root = some root) {ids : Finset ℤ}
    (hids : Descent.descendants (c.references decode refs) .stackOverflow depth root = .ok ids)
    (id : ℤ) : id ∈ insert root ids ↔ c.Live decode refs id := by
  have hlive : c.Live decode refs id ↔ Descent.Reaches (c.references decode refs) root id := by
    unfold Contents.Live
    rw [hroot]
    exact ⟨fun ⟨root', hmem, hpath⟩ => Option.some.inj hmem ▸ hpath,
      fun hpath => ⟨root, rfl, hpath⟩⟩
  rw [hlive, Finset.mem_insert, Descent.mem_descendants hids]
  exact Relation.reflTransGen_iff_eq_or_transGen.symm

/-- What is copied, as soon as it is known what the root leads to. -/
theorem exists_liveBlocks {h : Handle} (hrep : Represents h.file h.index c) {root : ℤ}
    (hroot : c.root = some root) {ids : Finset ℤ}
    (hids : Descent.descendants (c.references decode refs) .stackOverflow depth root = .ok ids)
    (w : Session) :
    ∃ blocks, LiveBlocks h.file c (c.live decode refs) root blocks ∧
      blocks.length = (insert root ids).card ∧
      copyPrepared decode refs order depth h w = copyBlocks h.file root blocks w := by
  have hwalk : ∀ id, id ∈ order.walk (insert root ids) ↔ c.Live decode refs id :=
    fun id => order.mem_walk.trans (mem_insert_iff_live hroot hids id)
  have hall : ∀ id ∈ order.walk (insert root ids), ∃ stored, c.blocks id = some (some stored) := by
    intro id hid
    obtain ⟨root', hmem, hpath⟩ := (hwalk id).mp hid
    cases Option.some.inj (hroot.symm.trans hmem)
    obtain ⟨refs', hrefs'⟩ := Descent.next_of_descendants hids hpath
    exact exists_stored hrefs'
  obtain ⟨es, hes, hidsEq, hholds⟩ := exists_extents hrep hall
  have hperm := perm_rootFirst root es
  have hmem : ∀ id, id ∈ (rootFirst root es).map Extent.id ↔ c.Live decode refs id := by
    intro id
    rw [(hperm.map Extent.id).mem_iff, hidsEq]
    exact hwalk id
  refine ⟨rootFirst root es, ⟨?_, ?_, ?_, hroot, ?_, ?_⟩, ?_, ?_⟩
  · rw [(hperm.map Extent.id).nodup_iff, hidsEq]
    exact order.nodup_walk _
  · exact fun e he => hholds e (hperm.mem_iff.mp he)
  · exact (hmem root).mpr ⟨root, hroot, Relation.ReflTransGen.refl⟩
  · exact fun id hid => Contents.blocks_live_of_live decode refs ((hmem id).mp hid)
  · exact fun id hid => Contents.blocks_live_of_not_live decode refs (mt (hmem id).mpr hid)
  · have hlength : (order.walk (insert root ids)).toFinset = insert root ids := by
      ext id
      rw [List.mem_toFinset, order.mem_walk]
    rw [hperm.length_eq, ← List.length_map (f := Extent.id), hidsEq, ← hlength,
      List.toFinset_card_of_nodup (order.nodup_walk _), hlength]
  · unfold copyPrepared References.blockReferences
    rw [ofBlock_eq hrep, hrep.root.trans hroot]
    dsimp only
    rw [hids]
    dsimp only
    rw [hes]

/-- What is committed when garbage was collected. -/
noncomputable def Contents.collected (decode : BlockType → List Byte → Option D)
    (refs : References D) (c : Contents) (w : Session) : Option Contents :=
  c.root.map fun _ => (c.live decode refs).put (freshId w.handle.index - 1) (some .index)

theorem gc_eq {file : File} {c : Contents} (hcommitted : Committed file c) :
    ∃ h : Handle, h.file = file ∧ Represents h.file h.index c ∧
      gc decode refs order depth file = copyPrepared decode refs order depth h blankWriter := by
  obtain ⟨index, hprep, hrep⟩ :=
    @Committed.prepRead D decode (openHandle file) c hcommitted rfl (Or.inl rfl)
  refine ⟨{ openHandle file with read := true, version := some currentVersion, index := index },
    rfl, hrep, ?_⟩
  unfold gc copy
  rw [hprep]
  dsimp only
  rw [prepWrite_on_nil]

/-- No garbage is collected from a file that cannot be read. -/
theorem gc_ne_ok {file : File} (huncommitted : Uncommitted file) (w : Session) :
    gc decode refs order depth file ≠ .ok w := by
  intro hgc
  have hrecovers := @Uncommitted.recovers D decode file huncommitted
  unfold Recovers at hrecovers
  unfold gc copy at hgc
  generalize prepRead decode (openHandle file) = prepared at hrecovers hgc
  obtain ⟨result, h⟩ := prepared
  cases result with
  | error e => cases hgc
  | ok _ =>
    dsimp only at hrecovers
    simp only [List.mem_cons, List.not_mem_nil, reduceCtorEq, or_self] at hrecovers

/-- The file that takes the place of another one has what is live there, and nothing else. -/
theorem settled_gc {file : File} (hcommitted : Committed file c) {w : Session}
    (hgc : gc decode refs order depth file = .ok w) (hfits : w.Fits) :
    Settled w.handle.file (c.collected decode refs w) := by
  obtain ⟨h, rfl, hrep, hcopy⟩ := @gc_eq D decode refs order depth _ c hcommitted
  rw [hcopy] at hgc
  unfold Contents.collected
  cases hroot : c.root with
  | none =>
    unfold copyPrepared at hgc
    rw [hrep.root.trans hroot] at hgc
    cases hgc
    exact Uncommitted.applyAll_headerWrites uncommitted_nil 2
  | some root =>
    cases hids : Descent.descendants (c.references decode refs) .stackOverflow depth root with
    | error e =>
      unfold copyPrepared References.blockReferences at hgc
      rw [ofBlock_eq hrep, hrep.root.trans hroot] at hgc
      dsimp only at hgc
      rw [hids] at hgc
      cases hgc
    | ok ids =>
      obtain ⟨blocks, hlive, -, hblocks⟩ :=
        @exists_liveBlocks D decode refs order depth c h hrep root hroot ids hids blankWriter
      rw [hblocks] at hgc
      have hlength : ∀ e ∈ blocks, (e.bytes h.file).length = e.length :=
        fun e he => (hlive.holds e he).length_bytes
      have hindex := index_copyBlocks hlength hgc
      have hindexFits := hfits.index
      rw [hindex] at hindexFits
      obtain ⟨w', hw', hfile⟩ := @copyBlocks_eq h.file root blocks hlive.nodup hlength
        (length_blockIndexData_lt hindexFits)
      cases hgc.symm.trans hw'
      have hsize := hfits.file
      rw [hfile] at hsize ⊢
      rw [hindex, freshId_indexWithItself, add_sub_cancel_right]
      exact hlive.committed hindexFits hsize

/-- What has no root leads to nothing. -/
theorem collectable_of_root_eq_none (hroot : c.root = none) : c.Collectable decode refs where
  readable := by
    rintro id ⟨root, hmem, -⟩
    rw [hroot] at hmem
    cases hmem
  finite := by
    intro root hmem
    rw [hroot] at hmem
    cases hmem

theorem collectable_of_gc {file : File} (hcommitted : Committed file c) {w : Session}
    (hgc : gc decode refs order depth file = .ok w) : c.Collectable decode refs := by
  obtain ⟨h, rfl, hrep, hcopy⟩ := @gc_eq D decode refs order depth _ c hcommitted
  cases hroot : c.root with
  | none => exact collectable_of_root_eq_none hroot
  | some root =>
    rw [hcopy] at hgc
    unfold copyPrepared References.blockReferences at hgc
    rw [ofBlock_eq hrep, hrep.root.trans hroot] at hgc
    dsimp only at hgc
    cases hids : Descent.descendants (c.references decode refs) .stackOverflow depth root with
    | error e =>
      rw [hids] at hgc
      cases hgc
    | ok ids =>
      refine ⟨fun id hlive => ?_, fun root' hmem => ?_⟩
      · obtain ⟨root', hmem, hpath⟩ := hlive
        cases Option.some.inj (hroot.symm.trans hmem)
        exact Descent.next_of_descendants hids hpath
      · cases Option.some.inj (hroot.symm.trans hmem)
        exact Descent.acc_of_descendants hids

theorem exists_gc {file : File} (hcommitted : Committed file c)
    (hcollectable : c.Collectable decode refs)
    (hsize : blockIndexSize (Set.ncard {id | c.Live decode refs id}) < 2 ^ 31) :
    ∃ depth, ∀ depth' ≥ depth, ∃ w, gc decode refs order depth' file = .ok w := by
  cases hroot : c.root with
  | none =>
    refine ⟨0, fun depth' _ => ⟨blankWriter, ?_⟩⟩
    obtain ⟨h, -, hrep, hcopy⟩ := @gc_eq D decode refs order depth' file c hcommitted
    rw [hcopy]
    unfold copyPrepared
    rw [hrep.root.trans hroot]
  | some root =>
    obtain ⟨depth, ids, hids⟩ := @Descent.exists_descendants _ _ _ _ CopyThrown.stackOverflow root
      (hcollectable.finite root hroot) fun id hpath =>
        hcollectable.readable id ⟨root, hroot, hpath⟩
    refine ⟨depth, fun depth' hdepth => ?_⟩
    have hids' := Descent.descendants_mono hdepth hids
    obtain ⟨h, -, hrep, hcopy⟩ := @gc_eq D decode refs order depth' file c hcommitted
    obtain ⟨blocks, hlive, hcard, hblocks⟩ :=
      @exists_liveBlocks D decode refs order depth' c h hrep root hroot ids hids' blankWriter
    have hset : {id | c.Live decode refs id} = ↑(insert root ids) := by
      ext id
      exact (mem_insert_iff_live hroot hids id).symm
    rw [hset, Set.ncard_coe_finset, ← hcard,
      ← @length_blockIndexData_layoutWriter root blocks hlive.nodup] at hsize
    obtain ⟨w, hw, -⟩ := @copyBlocks_eq h.file root blocks hlive.nodup
      (fun e he => (hlive.holds e he).length_bytes) (by omega)
    exact ⟨w, by rw [hcopy, hblocks, hw]⟩

end Collect

/-! ## Files over time -/

/-- What happens to a file: a session that ends after so many writes, or garbage is collected, on a
stack of some depth. -/
inductive StoreEvent
  | session (ops : List StoreOp) (writes : ℕ)
  | gc (depth : ℕ)

section Events

variable (decode : BlockType → List Byte → Option D) (refs : References D) (order : SetOrder ℤ)

/-- The file and what is committed after an event; a collection that fails leaves both as they
are. -/
noncomputable def afterEvent (saved : File × Option Contents) : StoreEvent → File × Option Contents
  | .session ops writes => afterSession decode saved (ops, writes)
  | .gc depth =>
    match gc decode refs order depth saved.1 with
    | .error _ => saved
    | .ok w => (w.handle.file, saved.2.bind fun c => c.collected decode refs w)

/-- The file and what is committed after some events, of which the first one finds no file. -/
noncomputable def afterEvents (events : List StoreEvent) : File × Option Contents :=
  events.foldl (afterEvent decode refs order) ([], none)

/-- Everything in an event fits. -/
def FitsEvent (saved : File × Option Contents) : StoreEvent → Prop
  | .session ops _ => FitsRun decode (Session.on saved.1, Archive.on saved.2) ops
  | .gc depth => ∀ w ∈ (gc decode refs order depth saved.1).toOption, w.Fits

/-- Everything in some events fits. -/
def FitsEvents (saved : File × Option Contents) : List StoreEvent → Prop
  | [] => True
  | event :: events =>
      FitsEvent decode refs order saved event ∧
        FitsEvents (afterEvent decode refs order saved event) events

end Events

variable {refs : References D} {order : SetOrder ℤ}

theorem settled_afterEvent {saved : File × Option Contents} (hsettled : Settled saved.1 saved.2)
    {event : StoreEvent} (hfits : FitsEvent decode refs order saved event) :
    Settled (afterEvent decode refs order saved event).1
      (afterEvent decode refs order saved event).2 := by
  cases event with
  | session ops writes =>
    exact (kept_run (agrees_on hsettled) hfits).2.2 writes (Nat.zero_le _)
  | gc depth =>
    unfold afterEvent
    cases hgc : gc decode refs order depth saved.1 with
    | error e =>
      dsimp only
      rw [hgc]
      exact hsettled
    | ok w =>
      dsimp only
      rw [hgc]
      dsimp only
      have hw : w.Fits := hfits w (by rw [hgc]; rfl)
      obtain ⟨file, committed⟩ := saved
      cases committed with
      | some c => exact settled_gc hsettled hgc hw
      | none =>
        exact absurd hgc (gc_ne_ok hsettled w)

theorem settled_afterEvents {events : List StoreEvent} {saved : File × Option Contents}
    (hsettled : Settled saved.1 saved.2) (hfits : FitsEvents decode refs order saved events) :
    Settled (events.foldl (afterEvent decode refs order) saved).1
      (events.foldl (afterEvent decode refs order) saved).2 := by
  induction events generalizing saved with
  | nil => exact hsettled
  | cons event events ih => exact ih (settled_afterEvent hsettled hfits.1) hfits.2

/-- Data are lists of ids. -/
def idsOnly : BlockType → List Byte → Option (List Byte)
  | .fressian, data => some data
  | _, _ => none

/-- Every id in a list is a reference. -/
def listedRefs : References (List Byte) where
  find ids := ids.map fun id => id.toNat
  partialMapRestId _ := none
  chunkBlockIds _ := []

instance (saved : File × Option Contents) (depth : ℕ) :
    Decidable (FitsEvent decode refs order saved (.gc depth)) :=
  inferInstanceAs (Decidable (∀ w ∈ (gc decode refs order depth saved.1).toOption, w.Fits))

/-- The root refers to the first block, and nothing to the second. -/
def rootedEvents : List StoreEvent :=
  [.session [.fressian none [[]], .fressian none [[1]], .fressian none [[1]], .setRoot 3,
    .blockIndex] 20]

/-- Garbage is collected, and another session ends in the middle of an index. -/
def collectedEvents : List StoreEvent :=
  rootedEvents ++ [.gc 2, .session [.read, .fressian none [[1]], .blockIndex] 3]

set_option maxRecDepth 100000 in
theorem rootedEvents_fit :
    FitsEvents idsOnly listedRefs (SetOrder.ascending ℤ) ([], none) rootedEvents := by
  refine ⟨⟨(by decide : ([[]] : List (List Byte)).flatten.length < 2 ^ 31), ?_, ?_,
    (by decide : [[(1 : Byte)]].flatten.length < 2 ^ 31), ?_, ?_,
    (by decide : [[(1 : Byte)]].flatten.length < 2 ^ 31), ?_, ?_, trivial, ?_, ?_, trivial, ?_, ?_,
    trivial⟩, trivial⟩
  case refine_1 | refine_3 | refine_5 | refine_7 | refine_9 => rintro ⟨⟩
  all_goals decide +kernel

set_option maxRecDepth 100000 in
theorem collectedEvents_fit :
    FitsEvents idsOnly listedRefs (SetOrder.ascending ℤ) ([], none) collectedEvents := by
  refine ⟨rootedEvents_fit.1, ?_, ⟨trivial, fun _ => Option.ne_none_iff_isSome.mpr ?_, ?_,
    (by decide : [[(1 : Byte)]].flatten.length < 2 ^ 31), ?_, ?_, trivial, ?_, ?_, trivial⟩,
    trivial⟩
  case refine_4 | refine_6 => rintro ⟨⟩
  all_goals decide +kernel

set_option maxRecDepth 100000 in
theorem isSome_rootedEvents :
    (afterEvents idsOnly listedRefs (SetOrder.ascending ℤ) rootedEvents).2.isSome := by
  decide +kernel

/-- What is committed before garbage is collected. -/
noncomputable def rootedContents : Contents :=
  (afterEvents idsOnly listedRefs (SetOrder.ascending ℤ) rootedEvents).2.get isSome_rootedEvents

theorem committed_rootedEvents :
    (afterEvents idsOnly listedRefs (SetOrder.ascending ℤ) rootedEvents).2 =
      some rootedContents := (Option.some_get _).symm

set_option maxRecDepth 100000 in
theorem descendants_rootedContents :
    Descent.descendants (rootedContents.references idsOnly listedRefs) .stackOverflow 2 3 =
      .ok {1} := by
  decide +kernel

theorem ncard_live_rootedContents :
    blockIndexSize (Set.ncard {id | rootedContents.Live idsOnly listedRefs id}) < 2 ^ 31 := by
  have hlive : {id | rootedContents.Live idsOnly listedRefs id} = ↑(insert 3 {1} : Finset ℤ) := by
    ext id
    exact (mem_insert_iff_live (by decide +kernel) descendants_rootedContents id).symm
  rw [hlive, Set.ncard_coe_finset]
  decide

end Jepsen.Store
