import Xv6.Mkfs.Nodes

/-!
# `main` of `mkfs`

The run of `main`, file by file: after each pass of its loop the image is that of the files so far
(`nodes`).  If the program does not exit with status 0, a name has a slash in it or the files do
not fit.  `Made` is what the image is at the end.
-/

namespace Xv6.Mkfs

open List
open Fs

variable {s s' : Image} {D D' : Disk} {i : Nat}

/-! ## The files of the image -/

/-- The entries that are put into the root directory. -/
def entries (files : List HostFile) : List UInt8 :=
  files.zipIdx.flatMap fun f => Dirent.encode (skipUnderscore f.1.name) (f.2 + 2)

def rootBytes (files : List HostFile) : List UInt8 :=
  Dirent.encode dot ROOTINO ++ Dirent.encode dotdot ROOTINO ++ entries files

/-- The root directory and the files. -/
def nodes (files : List HostFile) : List Node :=
  (T_DIR, rootBytes files) :: files.map fun f => (T_FILE, f.bytes)

theorem nodes_length (files : List HostFile) : (nodes files).length = files.length + 1 := by
  simp [nodes]

theorem entries_snoc (files : List HostFile) (f : HostFile) : entries (files ++ [f]) =
    entries files ++ Dirent.encode (skipUnderscore f.name) (files.length + 2) := by
  simp [entries, zipIdx_append, flatMap_append]

theorem entries_length (files : List HostFile) :
    (entries files).length = DESIZE * files.length := by
  induction files using List.reverseRecOn with
  | nil => rfl
  | append_singleton files f ih =>
    rw [entries_snoc, length_append, ih, encode_length, length_append]
    rfl

theorem rootBytes_length (files : List HostFile) :
    (rootBytes files).length = DESIZE * (files.length + 2) := by
  rw [rootBytes, length_append, length_append, encode_length, encode_length,
    entries_length]
  dsimp only [DESIZE]
  omega

/-- The files of `ns` are the first of those of `ms`, or the beginnings of them. -/
inductive Below : List Node → List Node → Prop
  | nil (ms : List Node) : Below [] ms
  | cons {n m : Node} {ns ms : List Node} : n.2.length ≤ m.2.length → Below ns ms →
      Below (n :: ns) (m :: ms)

theorem Below.append_left {ns ms : List Node} (h : Below ns ms) :
    ∀ l : List Node, Below (l ++ ns) (l ++ ms)
  | [] => h
  | _ :: l => .cons le_rfl (h.append_left l)

theorem usedBlocks_mono {a b : Nat} (h : a ≤ b) : usedBlocks a ≤ usedBlocks b := by
  have := dataBlocks_mono h
  unfold usedBlocks
  split <;> split <;> omega

theorem Fits.below {ns ms : List Node} (hf : Fits ms) (h : Below ns ms) : Fits ns := by
  have htotal : totalBlocks ns ≤ totalBlocks ms := by
    induction h with
    | nil ms => exact Nat.zero_le _
    | cons hle _ ih =>
      have hi := ih ⟨fun n hn => hf.1 n (mem_cons_of_mem _ hn), ?_⟩
      · exact Nat.add_le_add (usedBlocks_mono hle) hi
      · have := hf.2
        simp only [totalBlocks, map_cons, sum_cons] at this ⊢
        omega
  refine ⟨?_, (Nat.add_le_add_left htotal nmeta).trans hf.2⟩
  have hsize := hf.1
  clear hf htotal
  induction h with
  | nil ms => exact fun n hn => absurd hn not_mem_nil
  | cons hle _ ih =>
    intro n hn
    rcases mem_cons.1 hn with rfl | hn
    · exact hle.trans (hsize _ mem_cons_self)
    · exact ih (fun n hn => hsize n (mem_cons_of_mem _ hn)) n hn

theorem Built.fits {ns : List Node} (h : Built ns s D) : Fits ns := by
  constructor
  · intro n hn
    obtain ⟨j, hj⟩ := mem_iff_getElem?.1 hn
    rw [← (h.stored j n hj).size_eq]
    exact h.exact.max _ (h.live hj)
  · rw [← h.freeblock]
    exact h.high

theorem below_nodes (files rest : List HostFile) : Below (nodes files) (nodes (files ++ rest)) := by
  refine .cons ?_ ?_
  · rw [rootBytes_length, rootBytes_length, length_append]
    dsimp only [DESIZE]
    omega
  · rw [map_append]
    have := (Below.nil (rest.map fun f => (T_FILE, f.bytes))).append_left
      (files.map fun f => (T_FILE, f.bytes))
    rwa [append_nil] at this

/-! ## The loop over the arguments -/

theorem encode_ne_nil (name : List UInt8) (inum : Nat) : Dirent.encode name inum ≠ [] :=
  cons_ne_nil _ _

theorem nodes_snoc (files : List HostFile) (f : HostFile) : nodes (files ++ [f]) =
    ((T_DIR, rootBytes files ++ Dirent.encode (skipUnderscore f.name) (files.length + 2)) ::
      files.map fun f => (T_FILE, f.bytes)) ++ [(T_FILE, f.bytes)] := by
  rw [nodes, rootBytes, entries_snoc, map_append, ← append_assoc]
  rfl

/-- The loop around `read`: the last of the files grows piece by piece. -/
theorem pieces_spec {l : List Node} {c : List UInt8} {pieces : List (List UInt8)}
    (hne : ∀ p ∈ pieces, p ≠ []) (h : Built (l ++ [(T_FILE, c)]) s D) :
    Run (fun _ => ¬ Fits (l ++ [(T_FILE, c ++ pieces.flatten)]))
      (fun _ s' => ∃ D', Built (l ++ [(T_FILE, c ++ pieces.flatten)]) s' D')
      (pieces.forM (iappend (l.length + 1))) s := by
  refine (Run.forM (fun rest s => (∀ p ∈ rest, p ≠ []) ∧ ∃ done D,
    done ++ rest.flatten = c ++ pieces.flatten ∧ Built (l ++ [(T_FILE, done)]) s D) ?_ pieces
    ⟨hne, c, D, rfl, h⟩).mono ?_
  · rintro p rest s ⟨hne, done, D, hdone, h⟩
    rw [← hdone, flatten_cons]
    refine (Built.iappend l h (hne p mem_cons_self)).error_mono ?_ |>.mono ?_
    · intro _ hbad hfits
      refine hbad (hfits.below (Below.append_left (.cons ?_ (.nil _)) l))
      simp
    · rintro _ s' ⟨D', h'⟩
      exact ⟨fun q hq => hne q (mem_cons_of_mem _ hq), done ++ p, D',
        by rw [append_assoc], h'⟩
  · rintro _ s' ⟨-, done, D', hdone, h'⟩
    rw [flatten_nil, append_nil] at hdone
    exact ⟨D', hdone ▸ h'⟩

variable {files : List HostFile}

theorem addFile_spec (h : Built (nodes files) s D)
    (hlt : files.length + 2 < NINODES) (f : HostFile) :
    Run (fun _ => 47 ∈ f.name ∨ ¬ Fits (nodes (files ++ [f])))
      (fun _ s' => 47 ∉ f.name ∧ ∃ D', Built (nodes (files ++ [f])) s' D')
      (addFile ROOTINO f) s := by
  unfold addFile
  refine Run.ite (fun hs => Run.throw (.inl hs)) fun hs => ?_
  obtain ⟨s₁, hr, h₁⟩ := h.ialloc (by rw [nodes_length]; omega) T_FILE (by decide)
  refine Run.bind_eq hr ?_
  rw [nodes_length] at h₁ ⊢
  rw [nodes_snoc]
  -- the entry goes into the root directory, the first of the files
  refine Run.bind ((Built.iappend [] h₁ (encode_ne_nil _ _)).error_mono ?_) ?_
  · intro _ hbad
    refine .inr fun hfits => hbad (hfits.below (.cons le_rfl (Below.append_left (.cons ?_ ?_) _)))
    · exact Nat.zero_le _
    · exact .nil _
  · rintro _ s₂ ⟨D₂, h₂⟩
    have hne : ∀ p ∈ f.pieces, p ≠ [] := fun p hp => length_pos_iff.1 (f.piece_ok p hp).1
    have hrun := pieces_spec (l := _ :: _) (c := []) hne h₂
    rw [length_cons, length_map] at hrun
    exact (hrun.error_mono fun _ hbad => .inr hbad).mono fun _ s' h' => ⟨hs, h'⟩

/-- A list of files that `mkfs` can make an image of. -/
def Acceptable (files : List HostFile) : Prop :=
  (∀ f ∈ files, 47 ∉ f.name) ∧ Fits (nodes files)

theorem addFiles_spec (h : Built (nodes []) s D) (hlt : files.length + 1 < NINODES) :
    Run (fun _ => ¬ Acceptable files)
      (fun _ s' => Acceptable files ∧ ∃ D', Built (nodes files) s' D')
      (files.forM (addFile ROOTINO)) s := by
  refine (Run.forM (fun rest s => ∃ fs D, fs ++ rest = files ∧ (∀ f ∈ fs, 47 ∉ f.name) ∧
    Built (nodes fs) s D) ?_ files ⟨[], D, rfl, by simp, h⟩).mono ?_
  · rintro f rest s ⟨fs, D, rfl, hfs, h⟩
    rw [length_append, length_cons] at hlt
    refine (addFile_spec h (by omega) f).error_mono ?_ |>.mono ?_
    · rintro _ (hs | hbad) ⟨hslash, hfits⟩
      · exact hslash f (by simp) hs
      · rw [append_cons] at hfits
        exact hbad (hfits.below (below_nodes _ _))
    · rintro _ s' ⟨hs, D', h'⟩
      refine ⟨fs ++ [f], D', (append_cons ..).symm, fun g hg => ?_, h'⟩
      rcases mem_append.1 hg with hg | hg
      · exact hfs g hg
      · rw [mem_singleton.1 hg]
        exact hs
  · rintro _ s' ⟨fs, D', rfl, hfs, h'⟩
    rw [append_nil]
    exact ⟨⟨hfs, h'.fits⟩, D', h'⟩

/-! ## The root directory -/

/-- The image as a disk, before anything is put on it. -/
def blank : Disk where
  bit b := b < nmeta
  ino _ := Bytes.dinode (fun _ => 0) 0
  blk _ _ := 0

theorem zero_sectors (n : Nat) : (List.range n).forM (fun i => wsect i fun _ => 0) start =
    .ok ((), { start with nsect := n }) := by
  induction n with
  | zero => rfl
  | succ n ih =>
    have hzero : start.sect = Function.update start.sect n fun _ => 0 :=
      (Function.update_eq_self n start.sect).symm
    rw [range_succ]
    show (forM (List.range n ++ [n]) fun i => wsect i fun _ => 0 : M PUnit) start = _
    rw [forM_append]
    refine (seq_ok ih).trans ?_
    show Except.ok ((), Image.mk (Function.update start.sect n fun _ => 0) (max n (n + 1)) 1
      nmeta []) = _
    rw [← hzero, Nat.max_eq_right (Nat.le_succ n)]
    rfl

theorem dinode_zero (k : Nat) : Bytes.dinode (fun _ => 0) k = Bytes.dinode (fun _ => 0) 0 := by
  simp [Bytes.dinode, Bytes.short]

theorem blank_type (i : Nat) : (blank.ino i).type = 0 := by
  simp [blank, Bytes.dinode, Bytes.short]

theorem not_live_blank (i : Nat) : ¬ blank.Live sb i := fun h => h.2 (blank_type i)

theorem exact_blank : Exact blank := by
  have hp : ∀ r, blank.ptr sb r = 0 := fun r => Disk.ptr_of_not_live (not_live_blank r.ino)
  refine ⟨⟨fun r hr => absurd (hp r) hr, fun r hr => absurd (hp r) hr,
    fun r _ hr => absurd (hp r) hr, fun b hb => decide_eq_true hb⟩, ?_, ?_, ?_⟩
  all_goals exact fun i hi => absurd hi (not_live_blank i)

theorem built_nil : Built [] (Image.write { start with nsect := FSSIZE } 1 superblock) blank := by
  have hsect : ∀ b, b ≠ 1 →
      (Image.write { start with nsect := FSSIZE } 1 superblock).sect b = fun _ => 0 := fun b hb =>
    Image.write_of_ne hb
  have hmeta : 1 < nmeta := by decide
  refine ⟨⟨⟨rfl, le_rfl, by decide, fun b => rfl, fun b hb => hsect b (by omega), fun b hb => ?_,
    fun e he => absurd he not_mem_nil⟩, fun j hj => ?_, Image.write_self⟩,
    exact_blank, by decide, rfl, rfl, fun j n hn => absurd hn (by simp), fun i _ _ => blank_type i⟩
  · have hb : nmeta ≤ b := hb
    exact hsect b (by omega)
  · have hne : layout.iblock j ≠ 1 := by
      have := (iblock_range hj).1
      have : layout.inodestart = 32 := rfl
      omega
    unfold Layout.dinode
    rw [hsect _ hne, dinode_zero]
    rfl

theorem makeRoot_eq : ∃ s D, makeRoot start = .ok ((), s) ∧ Built (nodes []) s D := by
  have hfits : Fits (nodes []) := by
    constructor
    · intro n hn
      rw [mem_singleton.1 hn]
      decide
    · decide
  obtain ⟨s₁, hr, h₁⟩ := built_nil.ialloc (by decide) T_DIR (by decide)
  obtain ⟨_, s₂, hr₂, D₂, h₂⟩ := Run.exists_of
    ((Built.iappend [] h₁ (encode_ne_nil dot 1)).error_mono fun _ hbad =>
      hbad (hfits.below (.cons (by decide) (.nil _))))
  obtain ⟨_, s₃, hr₃, D₃, h₃⟩ := Run.exists_of
    ((Built.iappend [] h₂ (encode_ne_nil dotdot 1)).error_mono fun _ hbad =>
      hbad (hfits.below (.cons (by decide) (.nil _))))
  refine ⟨s₃, D₃, ?_, h₃⟩
  unfold makeRoot
  rw [seq_ok (zero_sectors FSSIZE), seq_ok (wsect_eq ..), seq_ok hr, if_neg (by decide)]
  exact (seq_ok hr₂).trans hr₃

/-! ## The end of `main` -/

theorem bit_bitmap (used b : Nat) : (bitmap used).bit b = decide (b < used) := by
  induction used with
  | zero => simp [bitmap, Bytes.bit]
  | succ used ih =>
    have hsucc : bitmap (used + 1) = (bitmap used).putBit used true := by
      rw [bitmap, range_succ, foldl_append]
      rfl
    rw [hsucc, Bytes.bit_putBit, ih]
    by_cases hb : b = used
    · simp [hb]
    · rw [if_neg hb]
      exact decide_eq_decide.2 (by omega)

/-- "fix size of root inode dir" -/
def rounded (size : Nat) : Nat := (size / BSIZE + 1) * BSIZE

/-- The finished image.  `D` is the disk before the size of the root directory is rounded up. -/
structure Finished (files : List HostFile) (s : Image) (D : Disk) : Prop where
  exact : Exact D
  stored : ∀ j n, (nodes files)[j]? = some n → Stored D (j + 1) n
  unused : ∀ i, i = 0 ∨ files.length + 1 < i → i < NINODES → (D.ino i).type = 0
  high : s.freeblock ≤ FSSIZE
  bit : ∀ b, D.bit b = decide (b < s.freeblock)
  holds : layout.Holds s.sect (grow D ROOTINO (rounded (D.ino ROOTINO).size))
  super : s.sect 1 = superblock
  trace : ∀ e ∈ s.trace, e.Within
  freeinode : s.freeinode = files.length + 2

/-- The free map is written over the zeros of its block. -/
theorem Holds.writeMap (h : Holds s D) :
    layout.Holds (s.write layout.bmapstart (bitmap s.freeblock)).sect D := by
  refine ⟨fun j hj => ?_, fun b hb => ?_, fun b hb => ?_⟩
  · rw [← h.ino j hj]
    have := (iblock_range hj).2
    unfold Layout.dinode
    rw [Image.write_of_ne (by omega)]
  · have hb : b < 2000 := hb
    have hblock : layout.bblock b = layout.bmapstart := by
      unfold Layout.bblock
      dsimp only [BPB, BSIZE]
      omega
    have hmod : b % BPB = b := by
      dsimp only [BPB, BSIZE]
      omega
    rw [hblock, hmod, Image.write_self, bit_bitmap]
    exact (h.bit b).symm
  · have hb : nmeta ≤ b := hb
    have hmeta : layout.bmapstart < nmeta := by decide
    rw [Image.write_of_ne (by omega)]
    exact h.blk b hb

/-- The last steps cannot fail. -/
theorem finish_eq (h : Blocks s D) :
    (do fixRoot ROOTINO; let s ← get; balloc s.freeblock : M Unit) s = .ok ((), (s.putInode ROOTINO
      { layout.dinode s.sect ROOTINO with
        size := rounded (layout.dinode s.sect ROOTINO).size }).write layout.bmapstart
      (bitmap s.freeblock)) := by
  have hroot : ROOTINO < NINODES := by decide
  have hused : s.freeblock < BSIZE * 8 := h.high.trans_lt (by decide)
  unfold fixRoot
  rw [bind_assoc, seq_ok (rinode_eq h hroot), seq_ok (winode_eq (h.iblock_lt hroot) _)]
  show (if s.freeblock < BSIZE * 8 then _ else _ : M Unit) _ = _
  rw [if_pos hused]
  rfl

theorem Built.finish (h : Built (nodes files) s D) :
    Run (fun _ => False) (fun _ s' => Finished files s' D)
      (do fixRoot ROOTINO; let s ← get; balloc s.freeblock) s := by
  have hroot : ROOTINO < NINODES := by decide
  have hl : D.Live sb ROOTINO := h.live (n := (T_DIR, rootBytes files)) rfl
  have hsize : rounded (D.ino ROOTINO).size < 2 ^ 32 := by
    have := h.exact.max _ hl
    dsimp only [rounded, MAXFILE, NDIRECT, NINDIRECT, BSIZE] at this ⊢
    omega
  have h₁ := h.toBlocks.holds hroot (owned_fits h.exact.owned hl hsize) (fun j hj _ => h.ino j hj)
    h.super
  have hr := finish_eq h.toBlocks
  rw [h.ino _ hroot] at hr
  refine Run.of_eq hr ⟨h.exact, h.stored, fun i hi => ?_, h.high, h.bit, h₁.writeMap, ?_, h₁.trace, ?_⟩
  · exact h.unused i (by rwa [nodes_length])
  · rw [Image.write_of_ne (by decide)]
    exact h₁.super
  · show s.freeinode = _
    rw [h.freeinode, nodes_length]

/-- A list of no more than `NINODES - 2` files is made into an image, or it is not acceptable. -/
theorem main_spec (hlt : files.length ≤ NINODES - 2) :
    Run (fun _ => ¬ Acceptable files) (fun _ s => Acceptable files ∧ ∃ D, Finished files s D)
      (main files) start := by
  obtain ⟨s₁, D₁, hr, h₁⟩ := makeRoot_eq
  unfold main
  refine Run.bind_eq hr ?_
  refine Run.bind (addFiles_spec h₁ (by dsimp only [NINODES] at hlt ⊢; omega)) ?_
  rintro _ s₂ ⟨hacc, D₂, h₂⟩
  exact (h₂.finish.error_mono fun _ => False.elim).mono fun _ s h => ⟨hacc, D₂, h⟩

end Xv6.Mkfs
