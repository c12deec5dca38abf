import Xv6.Fs.Contents
import Xv6.Fs.Layout
import Xv6.Lib.Note

/-!
# The blocks that `writei` logs

The routines under `writei` once more, with the numbers of the blocks that they pass to
`log_write`: data blocks, the indirect block, blocks of the free map and the block of the inode.
Without these notes they are the routines of `fs.c` as before (`writei_erases`).

`Takes` says which blocks the places of a file are given, and `logs` is the set of the blocks that
come into the log with them.
-/

namespace Xv6.Fs

open List

namespace Logged

variable {sb : Superblock} (L : Layout sb) (dev : Devsw) {b bn : Nat}

abbrev LM := StateT (State × Finset Nat) (Except Panic)

def logWrite (b : Nat) : LM Unit := do
  lift Fs.logWrite
  note b

def balloc : LM Nat := do
  let s ← lift get
  match (List.range sb.size).find? fun b => !s.disk.bit b with
  | none => throw .outOfBlocks
  | some b => do
    lift (modD fun D => D.setBit b true)
    logWrite (L.bblock b)
    lift (modD fun D => D.setBlk b fun _ => 0)
    logWrite b
    pure b

def iupdate (ip : ISlot) : LM Unit := do
  let s ← lift get
  lift (modD fun D => D.setIno (s.ic ip).inum (s.ic ip).copy)
  logWrite (L.iblock (s.ic ip).inum)

def mapSlot (ip : ISlot) (k : Fin (NDIRECT + 1)) : LM Nat := do
  let s ← lift get
  if (s.ic ip).copy.addrs k = 0 then do
    let b ← balloc L
    lift (modC ip fun d => d.setAddr k b)
    pure b
  else pure ((s.ic ip).copy.addrs k)

def mapEntry (a j : Nat) : LM Nat := do
  let s ← lift get
  if (s.disk.blk a).word j = 0 then do
    let b ← balloc L
    lift (modD fun D => D.setBlk a ((D.blk a).putWord j b))
    logWrite a
    pure b
  else pure ((s.disk.blk a).word j)

def bmap (ip : ISlot) (bn : Nat) : LM Nat :=
  if h : bn < NDIRECT then mapSlot L ip (Fin.castSucc ⟨bn, h⟩)
  else if bn - NDIRECT < NINDIRECT then do
    let a ← mapSlot L ip indSlot
    mapEntry L a (bn - NDIRECT)
  else throw .bmapRange

def writeLoop (ip : ISlot) : (fuel off : Nat) → List UInt8 → LM Nat
  | 0, off, _ => pure off
  | fuel + 1, off, src =>
    if src = [] then pure off else do
      let a ← bmap L ip (off / BSIZE)
      let m := min src.length (BSIZE - off % BSIZE)
      lift (modD fun D => D.setBlk a ((D.blk a).memmove (off % BSIZE) (src.take m)))
      logWrite a
      writeLoop ip fuel (off + m) (src.drop m)

def writei (ip : ISlot) (src : List UInt8) (off : Nat) : LM (Option Nat) := do
  let s ← lift get
  let d := (s.ic ip).copy
  if d.type = T_DEV then
    if d.major.toInt < 0 ∨ NDEV ≤ d.major.toInt then pure none else pure (dev.write d.major src)
  else if d.size < off ∨ 2 ^ 32 ≤ off + src.length then pure none
  else if MAXFILE * BSIZE < off + src.length then pure none
  else do
    let o ← writeLoop L ip src.length off src
    if 0 < src.length ∧ d.size < o then do
      lift (modC ip fun d => { d with size := o })
      iupdate L ip
      pure (some src.length)
    else pure (some src.length)

/-! ## Without the notes -/

theorem logWrite_erases (b : Nat) : Erases (logWrite b) Fs.logWrite := Erases.note _ b

theorem balloc_erases : Erases (balloc L) (Fs.balloc sb) := by
  refine Erases.bind (.lift _) fun s => ?_
  cases (List.range sb.size).find? fun b => !s.disk.bit b with
  | none => exact .throw _
  | some b =>
    refine .bind (.lift _) fun _ => .bind (logWrite_erases _) fun _ => ?_
    exact .bind (.lift _) fun _ => .bind (logWrite_erases _) fun _ => .pure _

theorem iupdate_erases (ip : ISlot) : Erases (iupdate L ip) (Fs.iupdate ip) :=
  .bind (.lift _) fun _ => .bind (.lift _) fun _ => logWrite_erases _

theorem mapSlot_erases (ip : ISlot) (k : Fin (NDIRECT + 1)) :
    Erases (mapSlot L ip k) (Fs.mapSlot sb ip k) := by
  refine Erases.bind (.lift _) fun s => .ite ?_ (.pure _)
  exact .bind (balloc_erases L) fun _ => .bind (.lift _) fun _ => .pure _

theorem mapEntry_erases (a j : Nat) : Erases (mapEntry L a j) (Fs.mapEntry sb a j) := by
  refine Erases.bind (.lift _) fun s => .ite ?_ (.pure _)
  refine .bind (balloc_erases L) fun _ => .bind (.lift _) fun _ => ?_
  exact .bind (logWrite_erases _) fun _ => .pure _

theorem bmap_erases (ip : ISlot) (bn : Nat) : Erases (bmap L ip bn) (Fs.bmap sb ip bn) := by
  unfold bmap Fs.bmap
  split
  · exact mapSlot_erases L ip _
  · refine .ite ?_ (.throw _)
    exact .bind (mapSlot_erases L ip _) fun a => mapEntry_erases L a _

theorem writeLoop_erases (ip : ISlot) (fuel off : Nat) (src : List UInt8) :
    Erases (writeLoop L ip fuel off src) (Fs.writeLoop sb ip fuel off src) := by
  induction fuel generalizing off src with
  | zero => exact .pure _
  | succ fuel ih =>
    unfold writeLoop Fs.writeLoop
    refine .ite (.pure _) (.bind (bmap_erases L ip _) fun a => ?_)
    exact .bind (.lift _) fun _ => .bind (logWrite_erases _) fun _ => ih _ _

theorem writei_erases (ip : ISlot) (src : List UInt8) (off : Nat) :
    Erases (writei L dev ip src off) (Fs.writei sb dev ip src off) := by
  refine Erases.bind (.lift _) fun s => ?_
  refine .ite (.ite (.pure _) (.pure _)) (.ite (.pure _) (.ite (.pure _) ?_))
  refine .bind (writeLoop_erases L ip _ _ _) fun o => .ite ?_ (.pure _)
  exact .bind (.lift _) fun _ => .bind (iupdate_erases L ip) fun _ => .pure _

end Logged

/-! ## The free blocks -/

variable {sb : Superblock} {D D' : Disk}

/-- The free blocks, in the order in which `balloc` takes them. -/
def Disk.freeList (D : Disk) (sb : Superblock) : List Nat :=
  (List.range sb.size).filter fun b => !D.bit b

theorem freeList_congr (h : D'.bit = D.bit) : D'.freeList sb = D.freeList sb := by
  rw [Disk.freeList, h, Disk.freeList]

theorem freeList_take (hb : (List.range sb.size).find? (fun b => !D.bit b) = some b) :
    D.freeList sb = b :: (D.take b).freeList sb := by
  have hhead : (D.freeList sb).head? = some b := by
    rw [Disk.freeList, head?_filter]
    exact hb
  obtain ⟨l, hl⟩ := head?_eq_some_iff.1 hhead
  have hnd : (D.freeList sb).Nodup := nodup_range.filter _
  have htake : (D.take b).freeList sb = (D.freeList sb).filter (· ≠ b) := by
    rw [Disk.freeList, Disk.freeList, filter_filter]
    refine filter_congr fun x _ => ?_
    rw [Disk.take, Disk.setBlk, Disk.setBit_apply]
    by_cases hx : x = b <;> simp [hx]
  rw [hl, nodup_cons] at hnd
  rw [htake, hl, filter_cons_of_neg (by simp)]
  congr 1
  exact (filter_eq_self.2 fun x hx => by simpa using ne_of_mem_of_not_mem hx hnd.1).symm

/-! ## Places that are given blocks -/

/-- The places that hold no block. -/
def lacking (sb : Superblock) (D : Disk) (S : Finset Ptr) : Finset Ptr :=
  S.filter (D.ptr sb · = 0)

theorem mem_lacking {S : Finset Ptr} {r : Ptr} :
    r ∈ lacking sb D S ↔ r ∈ S ∧ D.ptr sb r = 0 := Finset.mem_filter

/-- The places `S` are given blocks where they have none: the first free blocks `l`. -/
structure Takes (sb : Superblock) (S : Finset Ptr) (l : List Nat) (D D' : Disk) : Prop where
  owned : Owned sb D'
  type : ∀ j, (D'.ino j).type = (D.ino j).type
  other : ∀ j, (∀ r ∈ S, r.ino ≠ j) → D'.ino j = D.ino j
  held : ∀ r ∈ S, D'.ptr sb r ≠ 0
  same : ∀ r, r ∉ S ∨ D.ptr sb r ≠ 0 → D'.ptr sb r = D.ptr sb r
  free : D.freeList sb = l ++ D'.freeList sb
  count : l.length = (lacking sb D S).card
  given : ∀ b ∈ l, ∃ r ∈ lacking sb D S, D'.ptr sb r = b

namespace Takes

variable {S T : Finset Ptr} {l m : List Nat} {D₁ D₂ : Disk}

theorem refl (ho : Owned sb D) (h : ∀ r ∈ S, D.ptr sb r ≠ 0) : Takes sb S [] D D := by
  have hnone : lacking sb D S = ∅ := Finset.filter_eq_empty_iff.2 fun r hr => h r hr
  refine ⟨ho, fun _ => rfl, fun _ _ => rfl, h, fun _ _ => rfl, rfl, ?_, nofun⟩
  rw [hnone]
  rfl

/-- One block goes to an empty place. -/
theorem one {r₀ : Ptr} (ho : Owned sb D') (ht : ∀ j, (D'.ino j).type = (D.ino j).type)
    (hother : ∀ j, r₀.ino ≠ j → D'.ino j = D.ino j) (h0 : D.ptr sb r₀ = 0) (hb : b ≠ 0)
    (hp : ∀ r, D'.ptr sb r = if r = r₀ then b else D.ptr sb r)
    (hfree : D.freeList sb = b :: D'.freeList sb) : Takes sb {r₀} [b] D D' := by
  have hl : lacking sb D {r₀} = {r₀} :=
    Finset.filter_eq_self.2 fun r hr => by rw [Finset.mem_singleton.1 hr, h0]
  refine ⟨ho, ht, fun j hj => hother j (hj r₀ (Finset.mem_singleton_self r₀)), fun r hr => ?_,
    fun r hr => ?_, hfree, ?_, fun c hc => ?_⟩
  · rw [hp, if_pos (Finset.mem_singleton.1 hr)]
    exact hb
  · have hne : r ≠ r₀ := by
      rintro rfl
      rcases hr with hr | hr
      · exact hr (Finset.mem_singleton_self r)
      · exact hr h0
    rw [hp, if_neg hne]
  · rw [hl]
    rfl
  · refine ⟨r₀, mem_lacking.2 ⟨Finset.mem_singleton_self r₀, h0⟩, ?_⟩
    rw [hp, if_pos rfl, mem_singleton.1 hc]

section
variable (h : Takes sb S l D D₁)
include h

theorem lacking_union : lacking sb D (S ∪ T) = lacking sb D S ∪ lacking sb D₁ T := by
  ext r
  rw [Finset.mem_union, mem_lacking, mem_lacking, mem_lacking, Finset.mem_union]
  constructor
  · rintro ⟨hr | hr, h0⟩
    · exact .inl ⟨hr, h0⟩
    · by_cases hS : r ∈ S
      · exact .inl ⟨hS, h0⟩
      · exact .inr ⟨hr, (h.same r (.inl hS)).trans h0⟩
  · rintro (⟨hr, h0⟩ | ⟨hr, h1⟩)
    · exact ⟨.inl hr, h0⟩
    · refine ⟨.inr hr, ?_⟩
      by_contra h0
      exact h0 ((h.same r (.inr h0)).symm.trans h1)

theorem lacking_disjoint : Disjoint (lacking sb D S) (lacking sb D₁ T) := by
  rw [Finset.disjoint_left]
  intro r hr hr'
  exact h.held r (mem_lacking.1 hr).1 (mem_lacking.1 hr').2

theorem lacking_card : (lacking sb D (S ∪ T)).card = l.length + (lacking sb D₁ T).card := by
  rw [h.lacking_union, Finset.card_union_of_disjoint h.lacking_disjoint, h.count]

theorem trans (h' : Takes sb T m D₁ D₂) : Takes sb (S ∪ T) (l ++ m) D D₂ := by
  have hkeep : ∀ r, D₁.ptr sb r ≠ 0 → D₂.ptr sb r = D₁.ptr sb r := fun r hr => h'.same r (.inr hr)
  refine ⟨h'.owned, fun j => (h'.type j).trans (h.type j), fun j hj => ?_, fun r hr => ?_,
    fun r hr => ?_, ?_, ?_, fun b hb => ?_⟩
  · rw [h'.other j fun r hr => hj r (Finset.mem_union_right S hr),
      h.other j fun r hr => hj r (Finset.mem_union_left T hr)]
  · rcases Finset.mem_union.1 hr with hr | hr
    · rw [hkeep r (h.held r hr)]
      exact h.held r hr
    · exact h'.held r hr
  · rw [Finset.mem_union, not_or] at hr
    have h1 : D₁.ptr sb r = D.ptr sb r := h.same r (hr.imp_left And.left)
    rw [← h1] at hr ⊢
    exact h'.same r (hr.imp_left And.right)
  · rw [h.free, h'.free, append_assoc]
  · rw [h.lacking_card, length_append, h'.count]
  · rw [h.lacking_union]
    rcases mem_append.1 hb with hb | hb
    · obtain ⟨r, hr, rfl⟩ := h.given b hb
      exact ⟨r, Finset.mem_union_left _ hr, hkeep r (h.held r (mem_lacking.1 hr).1)⟩
    · obtain ⟨r, hr, rfl⟩ := h'.given b hb
      exact ⟨r, Finset.mem_union_right _ hr, rfl⟩

/-- The contents of the blocks may change. -/
theorem congr (hp : ∀ r, D₂.ptr sb r = D₁.ptr sb r)
    (hbit : D₂.bit = D₁.bit) (hino : D₂.ino = D₁.ino) : Takes sb S l D D₂ := by
  refine ⟨h.owned.congr hp hbit, fun j => ?_, fun j hj => ?_, fun r hr => ?_, fun r hr => ?_, ?_,
    h.count, fun b hb => ?_⟩
  · rw [hino, h.type j]
  · rw [hino, h.other j hj]
  · rw [hp]
    exact h.held r hr
  · rw [hp]
    exact h.same r hr
  · rw [freeList_congr hbit, h.free]
  · obtain ⟨r, hr, rfl⟩ := h.given b hb
    exact ⟨r, hr, hp r⟩

theorem live {i : Nat} : D₁.Live sb i ↔ D.Live sb i :=
  Disk.live_congr (h.type i)

end

end Takes

/-! ## Places of blocks -/

/-- The places that `bmap` looks at for block `bn`. -/
def visit (i bn : Nat) : Finset Ptr :=
  (Disk.place i bn).toFinset ∪ if NDIRECT ≤ bn then {.indirect i} else ∅

/-- The places of the blocks `V` of a file. -/
def places (i : Nat) (V : Finset Nat) : Finset Ptr := V.biUnion (visit i)

/-- The blocks that the bytes `[off, off + n)` of a file lie in. -/
def visits (off n : Nat) : Finset Nat := Finset.Ico (off / BSIZE) (off / BSIZE + span off n)

theorem mem_visit {i : Nat} {r : Ptr} :
    r ∈ visit i bn ↔ Disk.place i bn = some r ∨ NDIRECT ≤ bn ∧ r = .indirect i := by
  rw [visit, Finset.mem_union, Option.mem_toFinset, Option.mem_def]
  refine or_congr_right ?_
  split
  next h => simp [h]
  next h => simp [h]

theorem visits_zero (off : Nat) : visits off 0 = ∅ := by
  simp [visits, span]

theorem visits_step {off n : Nat} (hn : n ≠ 0) :
    visits off n = {off / BSIZE} ∪ visits (off + chunk off n) (n - chunk off n) := by
  unfold visits
  rw [span_step hn]
  ext bn
  simp only [Finset.mem_union, Finset.mem_singleton, Finset.mem_Ico]
  by_cases h0 : n - chunk off n = 0
  · rw [h0, span, if_pos rfl]
    omega
  · have : (off + chunk off n) / BSIZE = off / BSIZE + 1 := by
      dsimp only [chunk, BSIZE] at *
      omega
    omega

theorem visits_card (off n : Nat) : (visits off n).card = span off n := by
  rw [visits, Nat.card_Ico]
  omega

theorem visits_lt {off n : Nat} (h : off + n ≤ MAXFILE * BSIZE) (hbn : bn ∈ visits off n) :
    bn < MAXFILE := by
  rw [visits, Finset.mem_Ico] at hbn
  unfold span at hbn
  dsimp only [MAXFILE, NDIRECT, NINDIRECT, BSIZE] at *
  split at hbn <;> omega

theorem places_union (i : Nat) (V W : Finset Nat) : places i (V ∪ W) = places i V ∪ places i W :=
  Finset.union_biUnion ..

theorem places_singleton (i bn : Nat) : places i {bn} = visit i bn := Finset.singleton_biUnion

theorem visit_subset {i : Nat} {V : Finset Nat} (h : bn ∈ V) : visit i bn ⊆ places i V :=
  Finset.subset_biUnion_of_mem _ h

/-- Without an indirect block there are no entries. -/
theorem Disk.addr_of_no_indirect {i : Nat} (hd : NDIRECT ≤ bn) (h0 : D.ptr sb (.indirect i) = 0) :
    D.addr sb i bn = 0 := by
  unfold Disk.addr Disk.place
  rw [dif_neg (Nat.not_lt.2 hd)]
  split
  · exact if_pos h0
  · rfl

theorem Disk.exists_place (i : Nat) (h : bn < MAXFILE) : ∃ r, Disk.place i bn = some r := by
  by_cases hd : bn < NDIRECT
  · exact ⟨_, Disk.place_direct i hd⟩
  · have hj : bn - NDIRECT < NINDIRECT := by
      dsimp only [MAXFILE, NDIRECT, NINDIRECT] at *
      omega
    exact ⟨_, Disk.place_entry i hd hj⟩

/-- A block of the file that is asked for is there afterwards. -/
theorem Takes.addr_ne_zero {i : Nat} {V : Finset Nat} {m : List Nat}
    (h : Takes sb (places i V) m D D') (hbn : bn ∈ V) (hlt : bn < MAXFILE) :
    D'.addr sb i bn ≠ 0 := by
  obtain ⟨r, hr⟩ := Disk.exists_place i hlt
  rw [Disk.addr_of_place hr]
  exact h.held r (visit_subset hbn (mem_visit.2 (.inl hr)))

theorem Takes.slot_ne_zero {i : Nat} {V : Finset Nat} {m : List Nat}
    (h : Takes sb (places i V) m D D') (hbn : bn ∈ V) (hind : NDIRECT ≤ bn) :
    D'.slot sb i indSlot ≠ 0 :=
  h.held (.indirect i) (visit_subset hbn (mem_visit.2 (.inr ⟨hind, rfl⟩)))

theorem Takes.addr_same {i : Nat} {S : Finset Ptr} {m : List Nat} (h : Takes sb S m D D')
    (hn : D.addr sb i bn ≠ 0) : D'.addr sb i bn = D.addr sb i bn := by
  obtain ⟨r, hr, he⟩ := Disk.place_of_addr hn
  rw [Disk.addr_of_place hr, h.same r (.inr (he ▸ hn)), he]

/-- A block that has come is one that was asked for. -/
theorem Takes.mem_of_addr {i : Nat} {V : Finset Nat} {m : List Nat}
    (h : Takes sb (places i V) m D D') (h0 : D.addr sb i bn = 0) (h1 : D'.addr sb i bn ≠ 0) :
    bn ∈ V := by
  obtain ⟨r, hr, he⟩ := Disk.place_of_addr h1
  have hmem : r ∈ places i V := by
    by_contra hno
    rw [Disk.addr_of_place hr] at h0 h1
    exact h1 ((h.same r (.inl hno)).trans h0)
  obtain ⟨bn', hV, hv⟩ := Finset.mem_biUnion.1 hmem
  rcases mem_visit.1 hv with hp | ⟨-, rfl⟩
  · rwa [(Disk.place_inj hr hp).2]
  · exact (Disk.place_ne_indirect hr).elim

/-! ## What is logged -/

section
variable (L : Layout sb) {i : Nat} {V W : Finset Nat} {m m' : List Nat} {D₁ D₂ : Disk}

/-- What `balloc` logs for the blocks `m`: each is zeroed and marked. -/
def marked (m : List Nat) : Finset Nat := m.toFinset ∪ m.toFinset.image L.bblock

/-- The indirect block, if a block of `V` has to be entered there. -/
def entered (sb : Superblock) (i : Nat) (V : Finset Nat) (D D' : Disk) : Finset Nat :=
  if ∃ bn ∈ V, NDIRECT ≤ bn ∧ D.addr sb i bn = 0 then {D'.slot sb i indSlot} else ∅

/-- What a write to the blocks `V` logs besides the inode. -/
def logs (i : Nat) (V : Finset Nat) (m : List Nat) (D D' : Disk) : Finset Nat :=
  V.image (D'.addr sb i) ∪ marked L m ∪ entered sb i V D D'

theorem marked_append (m m' : List Nat) : marked L (m ++ m') = marked L m ∪ marked L m' := by
  unfold marked
  rw [toFinset_append, Finset.image_union, Finset.union_union_union_comm]

theorem mem_entered : b ∈ entered sb i V D D' ↔
    (∃ bn ∈ V, NDIRECT ≤ bn ∧ D.addr sb i bn = 0) ∧ b = D'.slot sb i indSlot := by
  unfold entered
  split
  next h => simp only [h, true_and, Finset.mem_singleton]
  next h => simp only [h, false_and, Finset.notMem_empty]

theorem entered_union (h : Takes sb (places i V) m D D₁) (h' : Takes sb (places i W) m' D₁ D₂) :
    entered sb i (V ∪ W) D D₂ = entered sb i V D D₁ ∪ entered sb i W D₁ D₂ := by
  have hslot : ∀ bn ∈ V, NDIRECT ≤ bn → D₂.slot sb i indSlot = D₁.slot sb i indSlot :=
    fun bn hV hd => h'.same (.indirect i) (.inr (h.slot_ne_zero hV hd))
  ext b
  rw [Finset.mem_union, mem_entered, mem_entered, mem_entered]
  constructor
  · rintro ⟨⟨bn, hbn, hd, h0⟩, hb⟩
    -- a block of `W` that is there already has come with `V`
    by_cases hV : bn ∈ V
    · exact .inl ⟨⟨bn, hV, hd, h0⟩, hb.trans (hslot bn hV hd)⟩
    · have hW : bn ∈ W := (Finset.mem_union.1 hbn).resolve_left hV
      have h1 : D₁.addr sb i bn = 0 := by
        by_contra h1
        exact hV (h.mem_of_addr h0 h1)
      exact .inr ⟨⟨bn, hW, hd, h1⟩, hb⟩
  · rintro (⟨⟨bn, hV, hd, h0⟩, hb⟩ | ⟨⟨bn, hW, hd, h1⟩, hb⟩)
    · exact ⟨⟨bn, Finset.mem_union_left _ hV, hd, h0⟩, hb.trans (hslot bn hV hd).symm⟩
    · refine ⟨⟨bn, Finset.mem_union_right _ hW, hd, ?_⟩, hb⟩
      by_contra h0
      exact h0 ((h.addr_same h0).symm.trans h1)

theorem logs_union (hV : ∀ bn ∈ V, bn < MAXFILE) (h : Takes sb (places i V) m D D₁)
    (h' : Takes sb (places i W) m' D₁ D₂) :
    logs L i (V ∪ W) (m ++ m') D D₂ = logs L i V m D D₁ ∪ logs L i W m' D₁ D₂ := by
  have himage : V.image (D₂.addr sb i) = V.image (D₁.addr sb i) :=
    Finset.image_congr fun bn hbn => h'.addr_same (h.addr_ne_zero hbn (hV bn hbn))
  unfold logs
  rw [Finset.image_union, himage, marked_append, entered_union h h']
  ac_rfl

/-- Data blocks and the indirect block lie behind the metadata. -/
theorem dataStart_le (hV : ∀ bn ∈ V, bn < MAXFILE) (h : Takes sb (places i V) m D D')
    (hb : b ∈ V.image (D'.addr sb i) ∪ entered sb i V D D') : sb.dataStart ≤ b := by
  rcases Finset.mem_union.1 hb with hb | hb
  · obtain ⟨bn, hbn, rfl⟩ := Finset.mem_image.1 hb
    have hne := h.addr_ne_zero hbn (hV bn hbn)
    obtain ⟨r, -, he⟩ := Disk.place_of_addr hne
    rw [← he] at hne ⊢
    exact (h.owned.range r hne).1
  · obtain ⟨⟨bn, hbn, hd, -⟩, rfl⟩ := mem_entered.1 hb
    exact (h.owned.range (.indirect i) (h.slot_ne_zero hbn hd)).1

/-- The new blocks are data blocks or the indirect block. -/
theorem logs_eq (h : Takes sb (places i V) m D D') : logs L i V m D D' =
    V.image (D'.addr sb i) ∪ entered sb i V D D' ∪ m.toFinset.image L.bblock := by
  have hnew : m.toFinset ⊆ V.image (D'.addr sb i) ∪ entered sb i V D D' := by
    intro b hb
    obtain ⟨r, hr, rfl⟩ := h.given b (mem_toFinset.1 hb)
    obtain ⟨hr, h0⟩ := mem_lacking.1 hr
    obtain ⟨bn, hbn, hv⟩ := Finset.mem_biUnion.1 hr
    rw [Finset.mem_union]
    rcases mem_visit.1 hv with hp | ⟨hd, rfl⟩
    · exact .inl (Finset.mem_image.2 ⟨bn, hbn, Disk.addr_of_place hp⟩)
    · exact .inr (mem_entered.2 ⟨⟨bn, hbn, hd, Disk.addr_of_no_indirect hd h0⟩, rfl⟩)
  unfold logs marked
  rw [← Finset.union_assoc, Finset.union_right_comm, Finset.union_right_comm _ m.toFinset,
    Finset.union_eq_left.2 hnew]

/-- Nothing before the free map is logged. -/
theorem bmapstart_le (hV : ∀ bn ∈ V, bn < MAXFILE) (h : Takes sb (places i V) m D D')
    (hb : b ∈ logs L i V m D D') : L.bmapstart ≤ b := by
  rw [logs_eq L h] at hb
  rcases Finset.mem_union.1 hb with hb | hb
  · exact (Nat.le_add_right ..).trans (L.bitmap.le.trans (dataStart_le hV h hb))
  · obtain ⟨c, -, rfl⟩ := Finset.mem_image.1 hb
    exact L.le_bblock c

/-- The data blocks, the indirect block and the blocks of the free map are different blocks. -/
theorem logs_card (hV : ∀ bn ∈ V, bn < MAXFILE) (h : Takes sb (places i V) m D D') :
    (logs L i V m D D').card =
      V.card + (if ∃ bn ∈ V, NDIRECT ≤ bn ∧ D.addr sb i bn = 0 then 1 else 0) +
        (m.toFinset.image L.bblock).card := by
  have hne : ∀ bn ∈ V, D'.addr sb i bn ≠ 0 := fun bn hbn => h.addr_ne_zero hbn (hV bn hbn)
  have hV' : (V.image (D'.addr sb i)).card = V.card :=
    Finset.card_image_of_injOn fun a ha b _ hab => (h.owned.addr_inj (hne a ha) hab).2
  have hent : (entered sb i V D D').card =
      if ∃ bn ∈ V, NDIRECT ≤ bn ∧ D.addr sb i bn = 0 then 1 else 0 := by
    unfold entered
    split <;> rfl
  have hd₁ : Disjoint (V.image (D'.addr sb i)) (entered sb i V D D') := by
    rw [Finset.disjoint_left]
    intro b hb hb'
    obtain ⟨bn, hbn, rfl⟩ := Finset.mem_image.1 hb
    exact h.owned.addr_ne_indirect (hne bn hbn) (mem_entered.1 hb').2
  have hd₂ : Disjoint (V.image (D'.addr sb i) ∪ entered sb i V D D')
      (m.toFinset.image L.bblock) := by
    rw [Finset.disjoint_left]
    intro b hb hb'
    have hge := dataStart_le hV h hb
    obtain ⟨c, hc, rfl⟩ := Finset.mem_image.1 hb'
    have hc : c ∈ D.freeList sb := by
      rw [h.free]
      exact mem_append_left _ (mem_toFinset.1 hc)
    have hlt := L.bblock_lt (mem_range.1 (mem_filter.1 hc).1)
    omega
  rw [logs_eq L h, Finset.card_union_of_disjoint hd₂, Finset.card_union_of_disjoint hd₁, hV', hent]

end

/-! ## The routines -/

namespace Logged

variable (L : Layout sb) {s : State} {t : ISlot} {i : Nat} {l : Finset Nat}

/-- The only panic: there are fewer free blocks than places that need one. -/
def Full (sb : Superblock) (D : Disk) (S : Finset Ptr) (e : Panic) : Prop :=
  e = .outOfBlocks ∧ (D.freeList sb).length < (lacking sb D S).card

section
variable {α : Type} {Q : Panic → Prop} {P : α → State × Finset Nat → Prop}

theorem run_get {k : State → LM α} (h : Run Q P (k s) (s, l)) :
    Run Q P (lift get >>= k) (s, l) := h

variable {k : Unit → LM α}

theorem run_modD {f : Disk → Disk} (h : Run Q P (k ()) ({ s with disk := f s.disk }, l)) :
    Run Q P (lift (modD f) >>= k) (s, l) := h

theorem run_modC (f : Dinode → Dinode)
    (h : Run Q P (k ()) (s.put t (D.setIno (s.ic t).inum (f (D.ino (s.ic t).inum))), l)) :
    Run Q P (lift (modC t f) >>= k) (s.put t D, l) :=
  Run.lift_bind (Run.of_eq (P := fun _ s' => s' = _) (modC_put s t D f) rfl) fun _ _ he => he ▸ h

theorem run_logWrite (htx : s.tx = true) (h : Run Q P (k ()) (s, insert b l)) :
    Run Q P (logWrite b >>= k) (s, l) := by
  have hlog : Run Q (fun _ s' => s' = s) Fs.logWrite s :=
    Run.get_bind (Run.ite (fun _ => Run.pure rfl) fun hf => absurd htx hf)
  unfold logWrite
  rw [bind_assoc]
  exact Run.lift_bind hlog fun _ _ he => he ▸ h

theorem run_iupdate (htx : s.tx = true)
    (h : Run Q P (k ()) ({ s with disk := s.disk.setIno (s.ic t).inum (s.ic t).copy },
      insert (L.iblock (s.ic t).inum) l)) : Run Q P (iupdate L t >>= k) (s, l) := by
  unfold iupdate
  simp only [bind_assoc]
  exact run_get (run_modD (run_logWrite htx h))

end

/-- A block for a place that has none. -/
theorem balloc_logged (htx : s.tx = true) {r : Ptr} (h0 : D.ptr sb r = 0) :
    Run (Full sb D {r}) (fun b x => x = (s.put t (D.take b), marked L [b] ∪ l) ∧
        D.freeList sb = b :: (D.take b).freeList sb ∧ D.bit b = false ∧ b < sb.size)
      (balloc L) (s.put t D, l) := by
  refine run_get ?_
  cases hb : (List.range sb.size).find? fun b => !(s.put t D).disk.bit b with
  | none =>
    have hnil : D.freeList sb = [] := filter_eq_nil_iff.2 (find?_eq_none.1 hb)
    have hone : lacking sb D {r} = {r} :=
      Finset.filter_true_of_mem fun r' hr => by rw [Finset.mem_singleton.1 hr, h0]
    refine Run.throw ⟨rfl, ?_⟩
    rw [hone, hnil]
    exact Nat.one_pos
  | some b =>
    have hf : (s.put t D).disk.bit b = false := by simpa using find?_some hb
    have hm := mem_range.1 (mem_of_find?_eq_some hb)
    refine run_modD (run_logWrite htx (run_modD (run_logWrite htx (Run.pure ?_))))
    refine ⟨Prod.ext rfl ?_, freeList_take hb, hf, hm⟩
    ext x
    simp only [marked, toFinset_cons, toFinset_nil, insert_empty_eq,
      Finset.image_singleton, Finset.mem_insert, Finset.mem_union, Finset.mem_singleton, or_assoc]

/-- The place of a slot of the inode. -/
def slotPlace (i : Nat) (k : Fin (NDIRECT + 1)) : Ptr :=
  if h : k < NDIRECT then .direct i ⟨k, h⟩ else .indirect i

theorem slotPlace_direct (i : Nat) (k : Fin NDIRECT) : slotPlace i k.castSucc = .direct i k :=
  dif_pos k.isLt

theorem slotPlace_ino (i : Nat) (k : Fin (NDIRECT + 1)) : (slotPlace i k).ino = i := by
  unfold slotPlace
  split <;> rfl

theorem ptr_slotPlace (D : Disk) (i : Nat) (k : Fin (NDIRECT + 1)) :
    D.ptr sb (slotPlace i k) = D.slot sb i k := by
  cases k using Fin.lastCases with
  | last => rfl
  | cast k =>
    rw [slotPlace_direct]
    rfl

theorem ptr_setSlot {k : Fin (NDIRECT + 1)} (hl : D.Live sb i) (h0 : D.slot sb i k = 0)
    (hz : D.blk b = fun _ => 0) (r : Ptr) :
    (D.setIno i ((D.ino i).setAddr k b)).ptr sb r =
      if r = slotPlace i k then b else D.ptr sb r := by
  cases k using Fin.lastCases with
  | last => exact ptr_setIndirect hl h0 hz r
  | cast k =>
    rw [slotPlace_direct]
    exact ptr_setDirect hl r

theorem mapSlot_logged (hi : (s.ic t).inum = i) (htx : s.tx = true) (ho : Owned sb D)
    (hl : D.Live sb i) (k : Fin (NDIRECT + 1)) :
    Run (Full sb D {slotPlace i k})
      (fun a x => ∃ D' m, x = (s.put t D', l ∪ marked L m) ∧ Takes sb {slotPlace i k} m D D' ∧
        a = D'.slot sb i k)
      (mapSlot L t k) (s.put t D, l) := by
  subst hi
  have hslot : D.slot sb (s.ic t).inum k = (D.ino (s.ic t).inum).addrs k := Disk.slot_of_live hl k
  refine run_get (Run.ite (fun h0 => ?_) fun h0 => ?_)
  · rw [put_copy, ← hslot] at h0
    have h0' : D.ptr sb (slotPlace (s.ic t).inum k) = 0 := (ptr_slotPlace D _ k).trans h0
    refine Run.bind (balloc_logged L htx h0') ?_
    rintro b _ ⟨rfl, hfree, hb, hbs⟩
    have hfr := fresh_take ho hb hbs
    have he := extends_take (i := (s.ic t).inum) ho hb
    have hl' : (D.take b).Live sb (s.ic t).inum := hl
    have he' := extends_setSlot (k := k) he.owned hfr hl' h0
    refine run_modC (fun d => d.setAddr k b) (Run.pure ?_)
    refine ⟨_, [b], by rw [Finset.union_comm], .one he'.owned ?_ (fun j hj => ?_) h0' hfr.ne_zero
      (fun r => ?_) hfree, ?_⟩
    · exact fun j => (he'.type_eq j).trans (he.type_eq j)
    · rw [slotPlace_ino] at hj
      exact he'.other j (Ne.symm hj)
    · rw [ptr_setSlot hl' h0 hfr.zero, ptr_take ho hb]
    · rw [slot_setAddr hl', if_pos ⟨rfl, rfl⟩]
  · rw [put_copy, ← hslot] at h0 ⊢
    refine Run.pure ⟨D, [], by simp [marked], .refl ho fun r hr => ?_, rfl⟩
    rw [Finset.mem_singleton.1 hr, ptr_slotPlace]
    exact h0

theorem mapEntry_logged (htx : s.tx = true) (ho : Owned sb D)
    (hs : D.slot sb i indSlot ≠ 0) (j : Fin NINDIRECT) :
    Run (Full sb D {.entry i j})
      (fun a x => ∃ D' m, x = (s.put t D',
          l ∪ marked L m ∪ if D.ptr sb (.entry i j) = 0 then {D.slot sb i indSlot} else ∅) ∧
        Takes sb {.entry i j} m D D' ∧ a = D'.ptr sb (.entry i j))
      (mapEntry L (D.slot sb i indSlot) j) (s.put t D, l) := by
  have hptr : D.ptr sb (.entry i j) = (D.blk (D.slot sb i indSlot)).word j := if_neg hs
  refine run_get (Run.ite (fun h0 => ?_) fun h0 => ?_)
  · change (D.blk (D.slot sb i indSlot)).word j = 0 at h0
    rw [← hptr] at h0
    refine Run.bind (balloc_logged L htx h0) ?_
    rintro b _ ⟨rfl, hfree, hb, hbs⟩
    have hfr := fresh_take ho hb hbs
    have he := extends_take (i := i) ho hb
    have h0' : (D.take b).ptr sb (.entry i j) = 0 := (ptr_take ho hb _).trans h0
    have he' := extends_setEntry he.owned hfr hs h0'
    have hb32 : b < 2 ^ 32 := Nat.lt_trans hbs sb.fits
    have hp : ∀ r, _ = if r = .entry i j then b else (D.take b).ptr sb r :=
      ptr_setEntry he.owned hs hb32
    refine run_modD (run_logWrite htx (Run.pure ?_))
    refine ⟨_, [b], Prod.ext rfl ?_, .one he'.owned ?_ (fun _ _ => rfl) h0 hfr.ne_zero
      (fun r => ?_) hfree, ?_⟩
    · show insert (D.slot sb i indSlot) (marked L [b] ∪ l) = _
      rw [if_pos h0, Finset.insert_eq]
      ac_rfl
    · exact fun j => (he'.type_eq j).trans (he.type_eq j)
    · exact (hp r).trans (by rw [ptr_take ho hb])
    · exact ((hp _).trans (if_pos rfl)).symm
  · change ¬ (D.blk (D.slot sb i indSlot)).word j = 0 at h0
    rw [← hptr] at h0
    refine Run.pure ⟨D, [], ?_, .refl ho fun r hr => ?_, hptr.symm⟩
    · rw [if_neg h0]
      simp [marked]
    · rw [Finset.mem_singleton.1 hr]
      exact h0

theorem Full.left {S T : Finset Ptr} {e : Panic} (h : Full sb D S e) : Full sb D (S ∪ T) e :=
  ⟨h.1, h.2.trans_le (Finset.card_le_card
    (Finset.filter_subset_filter _ Finset.subset_union_left))⟩

theorem Full.right {S T : Finset Ptr} {m : List Nat} {e : Panic} (h : Takes sb S m D D')
    (h' : Full sb D' T e) : Full sb D (S ∪ T) e := by
  refine ⟨h'.1, ?_⟩
  rw [h.free, h.lacking_card, length_append]
  exact Nat.add_lt_add_left h'.2 _

theorem visit_direct (h : bn < NDIRECT) : visit i bn = {slotPlace i (Fin.castSucc ⟨bn, h⟩)} := by
  rw [visit, Disk.place_direct i h, if_neg (Nat.not_le.2 h), Finset.union_empty, slotPlace_direct]
  rfl

theorem visit_indirect (h : ¬ bn < NDIRECT) (h' : bn - NDIRECT < NINDIRECT) :
    visit i bn = {slotPlace i indSlot} ∪ {.entry i ⟨bn - NDIRECT, h'⟩} := by
  rw [visit, Disk.place_entry i h h', if_pos (Nat.not_lt.1 h), Finset.union_comm]
  rfl

theorem bmap_logged (hi : (s.ic t).inum = i) (htx : s.tx = true) (ho : Owned sb D)
    (hl : D.Live sb i) (hbn : bn < MAXFILE) :
    Run (Full sb D (visit i bn))
      (fun a x => ∃ D' m, x = (s.put t D', l ∪ marked L m ∪ entered sb i {bn} D D') ∧
        Takes sb (visit i bn) m D D' ∧ a = D'.addr sb i bn)
      (bmap L t bn) (s.put t D, l) := by
  unfold bmap
  split
  next hd =>
    rw [visit_direct hd]
    refine (mapSlot_logged L hi htx ho hl _).mono ?_
    rintro a _ ⟨D', m, rfl, htakes, rfl⟩
    have hnone : entered sb i {bn} D D' = ∅ := by
      refine if_neg ?_
      rintro ⟨x, hx, hge, -⟩
      rw [Finset.mem_singleton.1 hx] at hge
      omega
    refine ⟨D', m, by rw [hnone, Finset.union_empty], htakes, ?_⟩
    exact (Disk.addr_of_place (Disk.place_direct i hd)).symm
  next hd =>
    have hj : bn - NDIRECT < NINDIRECT := by
      dsimp only [MAXFILE, NDIRECT, NINDIRECT] at *
      omega
    have haddr : ∀ E : Disk, E.addr sb i bn = E.ptr sb (.entry i ⟨bn - NDIRECT, hj⟩) := fun E =>
      Disk.addr_of_place (Disk.place_entry i hd hj)
    rw [if_pos hj, visit_indirect hd hj]
    refine Run.bind ((mapSlot_logged L hi htx ho hl indSlot).error_mono fun e he => he.left) ?_
    rintro a _ ⟨D₁, m₁, rfl, h₁, rfl⟩
    have hne : D₁.slot sb i indSlot ≠ 0 := h₁.held _ (Finset.mem_singleton_self _)
    have hsame : D₁.addr sb i bn = D.addr sb i bn := by
      rw [haddr, haddr]
      refine h₁.same _ (.inl fun hmem => ?_)
      cases Finset.mem_singleton.1 hmem
    refine ((mapEntry_logged L htx h₁.owned hne ⟨bn - NDIRECT, hj⟩).error_mono
      fun e he => he.right h₁).mono ?_
    rintro a _ ⟨D', m₂, rfl, h₂, rfl⟩
    have hslot : D'.slot sb i indSlot = D₁.slot sb i indSlot := h₂.same (.indirect i) (.inr hne)
    refine ⟨D', m₁ ++ m₂, Prod.ext rfl ?_, h₁.trans h₂, (haddr D').symm⟩
    have hent : entered sb i {bn} D D' = if D₁.ptr sb (.entry i ⟨bn - NDIRECT, hj⟩) = 0 then
        {D₁.slot sb i indSlot} else ∅ := by
      rw [← haddr, hsame, ← hslot]
      unfold entered
      simp only [Finset.mem_singleton, exists_eq_left, Nat.not_lt.1 hd, true_and]
    rw [hent, marked_append, Finset.union_assoc l]

theorem writeLoop_logged (hi : (s.ic t).inum = i) (htx : s.tx = true) :
    ∀ (fuel off : Nat) (src : List UInt8) (D : Disk) (l : Finset Nat), src.length ≤ fuel →
      off + src.length ≤ MAXFILE * BSIZE → Owned sb D → D.Live sb i →
      Run (Full sb D (places i (visits off src.length)))
        (fun o x => ∃ D' m, x = (s.put t D', l ∪ logs L i (visits off src.length) m D D') ∧
          o = off + src.length ∧ Takes sb (places i (visits off src.length)) m D D')
        (writeLoop L t fuel off src) (s.put t D, l) := by
  have hnil : ∀ (off : Nat) (D : Disk) (l : Finset Nat), Owned sb D →
      ∃ D' m, (s.put t D, l) = (s.put t D', l ∪ logs L i (visits off 0) m D D') ∧
        off = off + 0 ∧ Takes sb (places i (visits off 0)) m D D' := by
    intro off D l ho
    rw [visits_zero]
    refine ⟨D, [], by simp [logs, marked, entered], rfl, .refl ho fun r hr => ?_⟩
    simp [places] at hr
  intro fuel
  induction fuel with
  | zero =>
    intro off src D l hn _ ho _
    obtain rfl : src = [] := length_eq_zero_iff.mp (by omega)
    exact Run.pure (hnil off D l ho)
  | succ fuel ih =>
    intro off src D l hn hmax ho hl
    unfold writeLoop
    refine Run.ite (fun h0 => ?_) fun h0 => ?_
    · subst h0
      exact Run.pure (hnil off D l ho)
    have h0' : src.length ≠ 0 := fun h => h0 (length_eq_zero_iff.mp h)
    have hbn : off / BSIZE < MAXFILE := by
      dsimp only [MAXFILE, NDIRECT, NINDIRECT, BSIZE] at *
      omega
    have hpos := chunk_pos h0' off
    have hle := chunk_le off src.length
    have hdrop : (src.drop (chunk off src.length)).length = src.length - chunk off src.length :=
      length_drop ..
    rw [visits_step h0', places_union, places_singleton]
    refine Run.bind ((bmap_logged L hi htx ho hl hbn).error_mono fun e he => he.left) ?_
    rintro a _ ⟨D₁, m₁, rfl, h₁, rfl⟩
    have h₁' : Takes sb (places i {off / BSIZE}) m₁ D D₁ := by rwa [places_singleton]
    have ha : D₁.addr sb i (off / BSIZE) ≠ 0 :=
      h₁'.addr_ne_zero (Finset.mem_singleton_self _) hbn
    -- the state after the `memmove`
    let D₂ := D₁.setBlk (D₁.addr sb i (off / BSIZE))
      ((D₁.blk (D₁.addr sb i (off / BSIZE))).memmove (off % BSIZE)
        (src.take (chunk off src.length)))
    have hp : ∀ r, D₂.ptr sb r = D₁.ptr sb r := ptr_setData h₁.owned ha _
    have h₂ : Takes sb (places i {off / BSIZE}) m₁ D D₂ := h₁'.congr hp rfl rfl
    have hl₂ : D₂.Live sb i := h₂.live.2 hl
    refine run_modD (run_logWrite htx ?_)
    have hlog : insert (D₁.addr sb i (off / BSIZE))
        (l ∪ marked L m₁ ∪ entered sb i {off / BSIZE} D D₁) =
          l ∪ logs L i {off / BSIZE} m₁ D D₂ := by
      have hent : entered sb i {off / BSIZE} D D₂ = entered sb i {off / BSIZE} D D₁ := rfl
      unfold logs
      rw [Finset.image_singleton, Disk.addr_congr hp, hent, Finset.insert_eq]
      ac_rfl
    rw [hlog]
    have hrest := ih (off + chunk off src.length) (src.drop (chunk off src.length)) D₂
      (l ∪ logs L i {off / BSIZE} m₁ D D₂) (by omega) (by omega) h₂.owned hl₂
    rw [hdrop] at hrest
    refine (hrest.error_mono fun e he => ?_).mono ?_
    · rw [← places_singleton]
      exact he.right h₂
    · rintro o _ ⟨D₃, m₂, rfl, rfl, h₃⟩
      refine ⟨D₃, m₁ ++ m₂, Prod.ext rfl ?_, by omega, ?_⟩
      · have hV : ∀ bn ∈ ({off / BSIZE} : Finset Nat), bn < MAXFILE := fun bn h => by
          rwa [Finset.mem_singleton.1 h]
        rw [logs_union L hV h₂ h₃, Finset.union_assoc]
      · rw [← places_singleton]
        exact h₂.trans h₃

end Logged

end Xv6.Fs
