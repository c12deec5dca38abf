import Xv6.Mkfs.Append

/-!
# The image as a list of files

What `mkfs` builds up is a list of files: the root directory, which has inode 1, and the others in
the order of the arguments.  `Built ns s D` says that the image `s` holds these files and nothing
else.  `ialloc` puts an empty file at the end of the list and `iappend` adds bytes to one of them.
-/

namespace Xv6.Mkfs

open List
open Fs

variable {s s' : Image} {D D' : Disk} {i : Nat}

/-! ## Writing inodes -/

/-- The image after `winode`. -/
def Image.putInode (s : Image) (i : Nat) (d : Dinode) : Image :=
  { s with sect := layout.iupdate s.sect i d, trace := .winode (layout.iblock i) :: s.trace }

theorem iblock_range (hi : i < NINODES) :
    layout.inodestart ≤ layout.iblock i ∧ layout.iblock i < layout.bmapstart :=
  ⟨Nat.le_add_left .., layout.iblock_lt hi⟩

theorem Blocks.iblock_lt (h : Blocks s D) (hi : i < NINODES) : layout.iblock i < s.nsect := by
  have := (iblock_range hi).2
  rw [h.nsect]
  exact this.trans (by decide)

theorem rinode_eq (h : Blocks s D) (hi : i < NINODES) :
    rinode i s = .ok (layout.dinode s.sect i, s) := by
  unfold rinode
  rw [seq_ok ((rsect_eq ..).trans (if_pos (h.iblock_lt hi)))]
  rfl

theorem winode_eq (hlt : layout.iblock i < s.nsect) (d : Dinode) :
    winode i d s = .ok ((), s.putInode i d) := by
  unfold winode
  rw [seq_ok ((rsect_eq ..).trans (if_pos hlt)), seq_ok (wsect_eq ..)]
  show Except.ok ((), Image.mk (layout.iupdate s.sect i d) (max s.nsect (layout.iblock i + 1))
    s.freeinode s.freeblock (.winode (layout.iblock i) :: s.trace)) = _
  rw [Nat.max_eq_left hlt]
  rfl

theorem Blocks.putInode (h : Blocks s D) (hi : i < NINODES) (d : Dinode) :
    Blocks (s.putInode i d) (D.setIno i d) := by
  have hrange := iblock_range hi
  have hmeta : layout.bmapstart < nmeta := by decide
  have hsect : ∀ b, nmeta ≤ b → (s.putInode i d).sect b = s.sect b := fun b hb =>
    Function.update_of_ne (by omega) ..
  refine ⟨h.nsect, h.low, h.high, h.bit, fun b hb => ?_, fun b hb => ?_, fun e he => ?_⟩
  · rw [hsect b hb]
    exact h.blk b hb
  · rw [hsect b (h.low.trans hb)]
    exact h.zero b hb
  · rcases mem_cons.1 he with rfl | he
    · exact hrange
    · exact h.trace e he

/-- The image holds the disk `D`. -/
structure Holds (s : Image) (D : Disk) : Prop extends Blocks s D where
  ino : ∀ j < NINODES, layout.dinode s.sect j = D.ino j
  super : s.sect 1 = superblock

/-- An inode is written, the only one that may not have been on the image. -/
theorem Blocks.holds (h : Blocks s D) (hi : i < NINODES) {d : Dinode} (hd : d.Fits)
    (hino : ∀ j < NINODES, j ≠ i → layout.dinode s.sect j = D.ino j)
    (hsuper : s.sect 1 = superblock) : Holds (s.putInode i d) (D.setIno i d) where
  toBlocks := h.putInode hi d
  ino j hj := by
    show layout.dinode (layout.iupdate s.sect i d) j = _
    by_cases hji : j = i
    · rw [hji, Layout.dinode_iupdate_self _ _ _ hd, Disk.setIno_self]
    · rw [Layout.dinode_iupdate_of_ne _ _ _ hji, Disk.setIno_of_ne _ _ hji, hino j hj hji]
  super := by
    have hne : 1 ≠ layout.iblock i := by
      have := (iblock_range hi).1
      have : layout.inodestart = 32 := rfl
      omega
    rw [← hsuper]
    show layout.iupdate s.sect i d 1 = s.sect 1
    rw [Layout.iupdate, Function.update_of_ne hne]

/-! ## The files -/

/-- A file: its type and its bytes. -/
abbrev Node := BitVec 16 × List UInt8

/-- The blocks that the files take up. -/
def totalBlocks (ns : List Node) : Nat := (ns.map fun n => usedBlocks n.2.length).sum

theorem totalBlocks_append (l l' : List Node) :
    totalBlocks (l ++ l') = totalBlocks l + totalBlocks l' := by
  rw [totalBlocks, map_append, sum_append]
  rfl

/-- Inode `i` is that of the file. -/
structure Stored (D : Disk) (i : Nat) (n : Node) : Prop where
  type : n.1 ≠ 0
  ino : { D.ino i with addrs := fun _ => 0 } = { newInode n.1 with size := n.2.length }
  bytes : D.bytes sb i 0 n.2.length = n.2
  /-- behind the end there are zeros -/
  tail : ∀ o, n.2.length ≤ o → D.data sb i o = 0

variable {n : Node}

theorem Stored.type_eq (h : Stored D i n) : (D.ino i).type = n.1 :=
  congrArg Dinode.type h.ino

theorem Stored.size_eq (h : Stored D i n) : (D.ino i).size = n.2.length :=
  congrArg Dinode.size h.ino

structure Built (ns : List Node) (s : Image) (D : Disk) : Prop extends Holds s D where
  exact : Exact D
  inodes : ns.length < NINODES
  freeinode : s.freeinode = ns.length + 1
  freeblock : s.freeblock = nmeta + totalBlocks ns
  stored : ∀ j n, ns[j]? = some n → Stored D (j + 1) n
  unused : ∀ i, i = 0 ∨ ns.length < i → i < NINODES → (D.ino i).type = 0

theorem Built.live {ns : List Node} (h : Built ns s D) {j : Nat}
    (hn : ns[j]? = some n) : D.Live sb (j + 1) := by
  have hst := h.stored j n hn
  obtain ⟨hlt, -⟩ := List.getElem?_eq_some_iff.1 hn
  refine ⟨?_, hst.type_eq ▸ hst.type⟩
  have := h.inodes
  show j + 1 < NINODES
  omega

/-! ## `ialloc` -/

theorem newInode_fits (type : BitVec 16) : (newInode type).Fits :=
  ⟨Nat.two_pow_pos 32, fun _ => Nat.two_pow_pos 32⟩

/-- A free inode is taken; it holds no blocks, before and after. -/
theorem ptr_newInode (hl : ¬ D.Live sb i) (type : BitVec 16) (r : Ptr) :
    (D.setIno i (newInode type)).ptr sb r = D.ptr sb r := by
  have htwice : D.setIno i (newInode type) =
      (D.setIno i (.fresh type)).setIno i (newInode type) := by
    simp [Disk.setIno]
  rw [htwice, ptr_setMeta (by rw [Disk.setIno_self]; rfl) (by rw [Disk.setIno_self]; rfl),
    ptr_fresh hl]

theorem addr_of_not_live (hl : ¬ D.Live sb i) (n : Nat) : D.addr sb i n = 0 := by
  by_contra hn
  obtain ⟨r, hr, he⟩ := Disk.place_of_addr hn
  rw [← he] at hn
  exact hn (Disk.ptr_of_not_live (Disk.place_ino hr ▸ hl))

theorem Exact.newInode (h : Exact D) (hl : ¬ D.Live sb i) (type : BitVec 16) :
    Exact (D.setIno i (newInode type)) := by
  have hp := ptr_newInode hl type
  have hlive : ∀ j, j ≠ i → (D.setIno i (Mkfs.newInode type)).Live sb j → D.Live sb j :=
    fun j hj => (Disk.live_congr (by rw [Disk.setIno_of_ne _ _ hj])).1
  have hsize : ((D.setIno i (Mkfs.newInode type)).ino i).size = 0 := by
    rw [Disk.setIno_self]
    rfl
  refine ⟨h.owned.congr hp rfl, fun j hj => ?_, fun j hj n => ?_, fun j hj => ?_⟩
  · by_cases hji : j = i
    · rw [hji, hsize]
      exact Nat.zero_le _
    · rw [Disk.setIno_of_ne _ _ hji]
      exact h.max j (hlive j hji hj)
  · rw [Disk.addr_congr hp]
    by_cases hji : j = i
    · rw [hji, hsize]
      simp [addr_of_not_live hl, dataBlocks_zero]
    · rw [Disk.setIno_of_ne _ _ hji]
      exact h.addr j (hlive j hji hj) n
  · rw [hp]
    by_cases hji : j = i
    · have h0 : D.ptr sb (.indirect j) = 0 := Disk.ptr_of_not_live (hji ▸ hl)
      rw [h0, hji, hsize]
      simp [dataBlocks_zero]
    · rw [Disk.setIno_of_ne _ _ hji]
      exact h.indirect j (hlive j hji hj)

theorem Stored.congr (h : Stored D i n) (hino : D'.ino i = D.ino i)
    (hdata : ∀ o, D'.data sb i o = D.data sb i o) : Stored D' i n := by
  refine ⟨h.type, by rw [hino, h.ino], ?_, fun o ho => (hdata o).trans (h.tail o ho)⟩
  rw [bytes_congr fun o _ _ => hdata o, h.bytes]

theorem Built.ialloc {ns : List Node} (h : Built ns s D) (hlt : ns.length + 1 < NINODES)
    (type : BitVec 16) (ht : type ≠ 0) :
    ∃ s', ialloc type s = .ok (ns.length + 1, s') ∧
      Built (ns ++ [(type, [])]) s' (D.setIno (ns.length + 1) (newInode type)) := by
  have hdead : ¬ D.Live sb (ns.length + 1) := fun hl =>
    hl.2 (h.unused _ (.inr (Nat.lt_succ_self _)) hlt)
  -- the counter is moved on before the inode is written
  let s₁ : Image := { s with freeinode := s.freeinode + 1, trace := .inode s.freeinode :: s.trace }
  have hb : Blocks s₁ D := by
    refine ⟨h.nsect, h.low, h.high, h.bit, h.blk, h.zero, fun e he => ?_⟩
    rcases mem_cons.1 he with rfl | he
    · rw [h.freeinode]
      exact hlt
    · exact h.trace e he
  refine ⟨s₁.putInode (ns.length + 1) (newInode type), ?_, ?_⟩
  · have hw := winode_eq (hb.iblock_lt hlt) (newInode type)
    rw [← h.freeinode] at hw ⊢
    show (winode s.freeinode (newInode type) >>= fun _ => pure s.freeinode) s₁ = _
    rw [seq_ok hw]
    rfl
  · refine ⟨hb.holds hlt (newInode_fits type) (fun j hj _ => h.ino j hj) h.super,
      h.exact.newInode hdead type, ?_, ?_, ?_, fun j n hn => ?_, fun i hi hlt' => ?_⟩
    · rw [length_append]
      exact hlt
    · rw [length_append]
      show s.freeinode + 1 = _
      rw [h.freeinode]
      rfl
    · show s.freeblock = _
      have hnone : totalBlocks [(type, [])] = 0 := by
        simp [totalBlocks, usedBlocks, dataBlocks_zero]
      rw [h.freeblock, totalBlocks_append, hnone]
      rfl
    · rw [getElem?_append] at hn
      split at hn
      next hj =>
        have hne : j + 1 ≠ ns.length + 1 := by omega
        exact (h.stored j n hn).congr (Disk.setIno_of_ne _ _ hne)
          fun o => data_of_ptr (ptr_newInode hdead type) rfl _ o
      next hj =>
        have hj0 : j - ns.length = 0 := by
          have := (List.getElem?_eq_some_iff.1 hn).1
          simp only [length_singleton] at this
          omega
        obtain rfl : j = ns.length := by omega
        rw [Nat.sub_self] at hn
        cases hn
        refine ⟨ht, by rw [Disk.setIno_self]; rfl, rfl, fun o _ => ?_⟩
        rw [data_of_ptr (ptr_newInode hdead type) rfl]
        exact if_pos (addr_of_not_live hdead _)
    · rw [length_append] at hi
      have hne : i ≠ ns.length + 1 := by
        simp only [length_singleton] at hi
        omega
      rw [Disk.setIno_of_ne _ _ hne]
      refine h.unused i (hi.imp_right fun hi => ?_) hlt'
      simp only [length_singleton] at hi
      omega

/-! ## `iappend` -/

section
variable {p : List UInt8}

/-- The disk after the inode has been written with its new size. -/
def grow (D : Disk) (i size : Nat) : Disk := D.setIno i { D.ino i with size := size }

theorem ptr_grow (D : Disk) (i size : Nat) (r : Ptr) : (grow D i size).ptr sb r = D.ptr sb r :=
  ptr_setMeta (d := { D.ino i with size := size }) rfl rfl r

variable {m : List Nat}

theorem takes_ptr_other {V : Finset Nat} (h : Takes sb (places i V) m D D') {r : Ptr}
    (hr : r.ino ≠ i) : D'.ptr sb r = D.ptr sb r :=
  h.same r (.inl fun hmem => hr (places_ino hmem))

theorem takes_addr_other {V : Finset Nat} (h : Takes sb (places i V) m D D') {j : Nat}
    (hj : j ≠ i) (bn : Nat) : D'.addr sb j bn = D.addr sb j bn := by
  unfold Disk.addr
  cases hp : Disk.place j bn with
  | none => rfl
  | some r => exact takes_ptr_other h (Disk.place_ino hp ▸ hj)

theorem Exact.append (h : Exact D) (hl : D.Live sb i) (hn : p.length ≠ 0)
    (hmax : (D.ino i).size + p.length ≤ MAXFILE * BSIZE)
    (hw : Writes sb i (D.ino i).size p D D')
    (ht : Takes sb (places i (visits (D.ino i).size p.length)) m D D') :
    Exact (grow D' i ((D.ino i).size + p.length)) := by
  generalize hsz : (D.ino i).size = size at *
  have hp := ptr_grow D' i (size + p.length)
  have hlive : ∀ j, (grow D' i (size + p.length)).Live sb j ↔ D.Live sb j := fun j =>
    (live_setIno (d := { D'.ino i with size := size + p.length }) rfl j).trans ht.live
  have hself : ((grow D' i (size + p.length)).ino i).size = size + p.length := by
    rw [grow, Disk.setIno_self]
  have hother : ∀ j, j ≠ i → (grow D' i (size + p.length)).ino j = D.ino j := by
    intro j hj
    rw [grow, Disk.setIno_of_ne _ _ hj, hw.other j hj]
  have hmono := dataBlocks_mono (Nat.le_add_right size p.length)
  have htop := dataBlocks_le hmax
  refine ⟨hw.owned.congr hp rfl, fun j hj => ?_, fun j hj bn => ?_, fun j hj => ?_⟩
  · by_cases hji : j = i
    · rw [hji, hself]
      exact hmax
    · rw [hother j hji]
      exact h.max j ((hlive j).1 hj)
  · rw [Disk.addr_congr hp]
    by_cases hji : j = i
    · subst hji
      have hold : D.addr sb j bn ≠ 0 ↔ bn < dataBlocks size := hsz ▸ h.addr j hl bn
      rw [hself]
      constructor
      · intro h1
        by_cases h0 : D.addr sb j bn = 0
        · have hmem := ht.mem_of_addr h0 h1
          rw [visits_append hn, Finset.mem_Ico] at hmem
          exact hmem.2
        · have := hold.1 h0
          omega
      · intro hlt
        by_cases hlow : bn < dataBlocks size
        · rw [ht.addr_same (hold.2 hlow)]
          exact hold.2 hlow
        · exact ht.addr_ne_zero (mem_visits_append hn (Nat.not_lt.1 hlow) hlt) (by omega)
    · rw [takes_addr_other ht hji, hother j hji]
      exact h.addr j ((hlive j).1 hj) bn
  · rw [hp]
    by_cases hji : j = i
    · subst hji
      have hold : D.ptr sb (.indirect j) ≠ 0 ↔ NDIRECT < dataBlocks size := hsz ▸ h.indirect j hl
      rw [hself]
      constructor
      · intro h1
        by_contra hge
        have h0 : D.ptr sb (.indirect j) = 0 := by
          by_contra h0
          have := hold.1 h0
          omega
        refine h1 ((ht.same _ (.inl fun hmem => ?_)).trans h0)
        obtain ⟨bn, hbn, hv⟩ := Finset.mem_biUnion.1 hmem
        rw [visits_append hn, Finset.mem_Ico] at hbn
        rcases mem_visit.1 hv with hp | ⟨hd, -⟩
        · exact Disk.place_ne_indirect hp
        · omega
      · intro hlt
        by_cases hlow : NDIRECT < dataBlocks size
        · rw [ht.same _ (.inr (hold.2 hlow))]
          exact hold.2 hlow
        · exact ht.slot_ne_zero (mem_visits_append hn (Nat.not_lt.1 hlow) hlt) le_rfl
    · rw [takes_ptr_other (r := .indirect j) ht hji, hother j hji]
      exact h.indirect j ((hlive j).1 hj)

theorem Stored.append {t : BitVec 16} {c : List UInt8} (h : Stored D i (t, c))
    (hw : Writes sb i c.length p D D') :
    Stored (grow D' i (c.length + p.length)) i (t, c ++ p) := by
  have hdata : ∀ o, (grow D' i (c.length + p.length)).data sb i o = D'.data sb i o := fun o =>
    data_of_ptr (ptr_grow D' i _) rfl i o
  refine ⟨h.type, ?_, ?_, fun o ho => ?_⟩
  · rw [grow, Disk.setIno_self, length_append]
    have hself : { D'.ino i with addrs := fun _ => 0 } = { D.ino i with addrs := fun _ => 0 } :=
      congrArg (fun d : Dinode => { d with addrs := fun _ => 0 }) hw.self
    exact congrArg (fun d : Dinode => { d with size := c.length + p.length })
      (hself.trans h.ino)
  · show (grow D' i (c.length + p.length)).bytes sb i 0 (c ++ p).length = c ++ p
    rw [length_append, bytes_append, Nat.zero_add]
    congr 1
    · rw [bytes_congr (D := D) fun o _ ho => ?_]
      · exact h.bytes
      · rw [hdata, hw.data, if_neg (by omega)]
    · refine ext_getElem (by simp [Disk.bytes]) fun o ho ho' => ?_
      simp only [Disk.bytes, getElem_map, getElem_range]
      rw [hdata, hw.data, if_pos ⟨rfl, by omega, by omega⟩, Nat.add_sub_cancel_left,
        getD_eq_getElem _ _ ho']
  · have ho : c.length + p.length ≤ o := length_append ▸ ho
    rw [hdata, hw.data, if_neg (by omega)]
    exact h.tail o (by dsimp only; omega)

end

/-- The files fit on the disk. -/
def Fits (ns : List Node) : Prop :=
  (∀ n ∈ ns, n.2.length ≤ MAXFILE * BSIZE) ∧ nmeta + totalBlocks ns ≤ FSSIZE

theorem totalBlocks_middle (l₁ l₂ : List Node) (n : Node) :
    totalBlocks (l₁ ++ n :: l₂) = totalBlocks l₁ + usedBlocks n.2.length + totalBlocks l₂ := by
  rw [totalBlocks_append, Nat.add_assoc]
  rfl

theorem getElem?_middle {l₁ l₂ : List Node} {x : Node} {j : Nat}
    (h : (l₁ ++ n :: l₂)[j]? = some x) :
    j = l₁.length ∧ x = n ∨ j ≠ l₁.length ∧ ∀ n' : Node, (l₁ ++ n' :: l₂)[j]? = some x := by
  by_cases hj : j = l₁.length
  · subst hj
    rw [getElem?_append_right le_rfl, Nat.sub_self] at h
    cases h
    exact .inl ⟨rfl, rfl⟩
  · refine .inr ⟨hj, fun n' => ?_⟩
    rw [getElem?_append] at h ⊢
    split
    next hlt => rwa [if_pos hlt] at h
    next hge =>
      rw [if_neg hge] at h
      obtain ⟨k, hk⟩ : ∃ k, j - l₁.length = k + 1 := ⟨j - l₁.length - 1, by omega⟩
      rw [hk, getElem?_cons_succ] at h ⊢
      exact h

theorem owned_fits (h : Owned sb D) (hl : D.Live sb i) {size : Nat} (hs : size < 2 ^ 32) :
    Dinode.Fits { D.ino i with size := size } := by
  refine ⟨hs, fun k => ?_⟩
  show (D.ino i).addrs k < 2 ^ 32
  rw [← Disk.slot_of_live hl, ← Logged.ptr_slotPlace]
  by_cases h0 : D.ptr sb (Logged.slotPlace i k) = 0
  · rw [h0]
    decide
  · exact (h.range _ h0).2.trans sb.fits

/-- Bytes are added to one file; if that fails, they do not fit. -/
theorem Built.iappend (l₁ : List Node) {l₂ : List Node} {t : BitVec 16} {c p : List UInt8}
    (h : Built (l₁ ++ (t, c) :: l₂) s D) (hp : p ≠ []) :
    Run (fun _ => ¬ Fits (l₁ ++ (t, c ++ p) :: l₂))
      (fun _ s' => ∃ D', Built (l₁ ++ (t, c ++ p) :: l₂) s' D') (iappend (l₁.length + 1) p) s := by
  have hget : (l₁ ++ (t, c) :: l₂)[l₁.length]? = some (t, c) := by simp
  have hst := h.stored _ _ hget
  have hl := h.live hget
  have hi : l₁.length + 1 < NINODES := hl.1
  have hsize : (D.ino (l₁.length + 1)).size = c.length := hst.size_eq
  have hn : p.length ≠ 0 := fun h0 => hp (length_eq_zero_iff.1 h0)
  have hfree := h.freeblock
  rw [totalBlocks_middle] at hfree
  unfold Mkfs.iappend
  refine Run.bind_eq (rinode_eq h.toBlocks hi) ?_
  rw [h.ino _ hi]
  by_cases hmax : c.length + p.length ≤ MAXFILE * BSIZE
  · have hmax' : (D.ino (l₁.length + 1)).size + p.length ≤ MAXFILE * BSIZE := hsize ▸ hmax
    refine Run.bind ((appendLoop_spec h.toBlocks h.exact hl hp hmax').error_mono ?_) ?_
    · intro e hfull hfits
      have := hfits.2
      rw [totalBlocks_middle, length_append] at this
      rw [hsize] at hfull
      dsimp only at hfree
      omega
    · rintro _ s₁ ⟨D₁, rfl, ha⟩
      obtain ⟨m, ht⟩ := ha.takes
      have hw := ha.writes
      have hexact := h.exact.append hl hn hmax' hw ht
      have hcount := ha.count
      rw [hsize] at hw hexact hcount ⊢
      have hl₁ : D₁.Live sb (l₁.length + 1) := ht.live.2 hl
      have hother : ∀ j, j ≠ l₁.length + 1 →
          (grow D₁ (l₁.length + 1) (c.length + p.length)).ino j = D.ino j := fun j hj => by
        rw [grow, Disk.setIno_of_ne _ _ hj, hw.other j hj]
      refine Run.of_eq (winode_eq (ha.blocks.iblock_lt hi) _) ⟨grow D₁ (l₁.length + 1) (c.length + p.length),
        ha.blocks.holds hi (owned_fits hw.owned hl₁ ?_) (fun j hj hne => ?_) ?_, hexact, ?_, ?_, ?_,
        fun j n hj => ?_, fun j hj hlt => ?_⟩
      · exact hmax.trans_lt (by decide)
      · rw [hw.other j hne, ← h.ino j hj]
        have hlt := (iblock_range hj).2
        have hmeta : layout.bmapstart < nmeta := by decide
        unfold Layout.dinode
        rw [ha.frame.1 _ (hlt.trans hmeta)]
      · exact (ha.frame.1 1 (by decide)).trans h.super
      · have := h.inodes
        simpa using this
      · rw [show (s₁.putInode _ _).freeinode = s₁.freeinode from rfl, ha.frame.2, h.freeinode]
        simp
      · show s₁.freeblock = _
        rw [totalBlocks_middle, length_append]
        dsimp only at hfree
        omega
      · rcases getElem?_middle hj with ⟨rfl, rfl⟩ | ⟨hne, hold⟩
        · exact hst.append hw
        · have hne' : j + 1 ≠ l₁.length + 1 := by omega
          refine (h.stored j n (hold _)).congr (hother _ hne') fun o => ?_
          rw [data_of_ptr (ptr_grow D₁ _ _) rfl, hw.data, if_neg fun hc => hne' hc.1]
      · have hj' : j = 0 ∨ (l₁ ++ (t, c) :: l₂).length < j := by simpa using hj
        have hne : j ≠ l₁.length + 1 := by
          simp only [length_append, length_cons] at hj'
          omega
        rw [hother j hne]
        exact h.unused j hj' hlt
  · have hbad : ¬ Fits (l₁ ++ (t, c ++ p) :: l₂) := fun hfits => hmax (by
      have := hfits.1 (t, c ++ p) (by simp)
      simpa using this)
    have hoff : (D.ino (l₁.length + 1)).size ≤ MAXFILE * BSIZE := h.exact.max _ hl
    refine Run.bind ((appendLoop_bound _ _ _ p s le_rfl hoff).error_mono fun _ _ => hbad) ?_
    intro r s₁ hle
    rw [hsize] at hle
    exact absurd hle hmax

end Xv6.Mkfs
