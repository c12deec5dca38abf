import Xv6.Mkfs.Geometry
import Xv6.Fs.FileBytes

/-!
# The kernel on an image of `mkfs`

What the kernel sees on the image: any disk that the blocks of the image hold
(`Layout.Holds`).  Every file that was put on it is found by name and has its bytes, and no block
of it is free (`mkfs_readable`).  The size of the root directory is rounded up to the next block
after the last entry, which has no address if the entries fill their blocks (`mkfs_noHoles_iff`).
-/

namespace Xv6.Mkfs

open List
open Fs

variable {s : Image} {D D' : Disk} {i : Nat} {files : List HostFile} {j : Nat} {name : List UInt8}

/-! ## Disks that the same blocks hold -/

section
variable {R : Nat → Bytes} (h : layout.Holds R D) (h' : layout.Holds R D')
include h h'

theorem ino_of_holds (hi : i < NINODES) : D'.ino i = D.ino i := by
  rw [← h.ino i hi, ← h'.ino i hi]

theorem ptr_of_holds (ho : Owned sb D) (r : Ptr) : D'.ptr sb r = D.ptr sb r := by
  by_cases hr : r.ino < NINODES
  · refine Disk.ptr_congr (ino_of_holds h h' hr) fun hne => ?_
    have hb : sb.dataStart ≤ D.slot sb r.ino indSlot := (ho.range (.indirect r.ino) hne).1
    rw [← h.blk _ hb, ← h'.blk _ hb]
  · rw [Disk.ptr_of_not_live fun hl => hr hl.1, Disk.ptr_of_not_live fun hl => hr hl.1]

theorem data_of_holds (ho : Owned sb D) (i o : Nat) : D'.data sb i o = D.data sb i o := by
  unfold Disk.data
  rw [Disk.addr_congr (ptr_of_holds h h' ho)]
  by_cases ha : D.addr sb i (o / BSIZE) = 0
  · rw [if_pos ha, if_pos ha]
  · obtain ⟨r, -, he⟩ := Disk.place_of_addr ha
    have hb : sb.dataStart ≤ D.addr sb i (o / BSIZE) := by
      rw [← he] at ha ⊢
      exact (ho.range r ha).1
    rw [if_neg ha, if_neg ha, ← h.blk _ hb, ← h'.blk _ hb]

end

/-! ## What the kernel sees -/

/-- The disk that the kernel reads from the blocks. -/
def Image.disk (s : Image) : Disk where
  bit b := (s.sect (layout.bblock b)).bit (b % BPB)
  ino := layout.dinode s.sect
  blk := s.sect

theorem holds_disk (s : Image) : layout.Holds s.sect s.disk :=
  ⟨fun _ _ => rfl, fun _ _ => rfl, fun _ _ => rfl⟩

/-- `D'` is the disk `D` of the files as the kernel sees it, with the root's size rounded up. -/
structure View (D D' : Disk) : Prop where
  ino : ∀ i < NINODES, i ≠ ROOTINO → D'.ino i = D.ino i
  root : D'.ino ROOTINO = { D.ino ROOTINO with size := rounded (D.ino ROOTINO).size }
  ptr : ∀ r, D'.ptr sb r = D.ptr sb r
  data : ∀ i o, D'.data sb i o = D.data sb i o
  bit : ∀ b < FSSIZE, D'.bit b = D.bit b

theorem Finished.view (h : Finished files s D) (h' : layout.Holds s.sect D') : View D D' := by
  have hp := ptr_grow D ROOTINO (rounded (D.ino ROOTINO).size)
  have ho : Owned sb (grow D ROOTINO (rounded (D.ino ROOTINO).size)) :=
    h.exact.owned.congr hp rfl
  refine ⟨fun i hi hne => ?_, ?_, fun r => ?_, fun i o => ?_, fun b hb => ?_⟩
  · rw [ino_of_holds h.holds h' hi, grow, Disk.setIno_of_ne _ _ hne]
  · rw [ino_of_holds h.holds h' (by decide), grow, Disk.setIno_self]
  · rw [ptr_of_holds h.holds h' ho, hp]
  · rw [data_of_holds h.holds h' ho, data_of_ptr hp rfl]
  · rw [← h'.bit b hb, h.holds.bit b hb]
    rfl

theorem View.live (h : View D D') (i : Nat) : D'.Live sb i ↔ D.Live sb i := by
  by_cases hi : i < NINODES
  · by_cases hr : i = ROOTINO
    · subst hr
      exact Disk.live_congr (by rw [h.root])
    · exact Disk.live_congr (by rw [h.ino i hi hr])
  · exact ⟨fun hl => absurd hl.1 hi, fun hl => absurd hl.1 hi⟩

theorem View.addr (h : View D D') (i n : Nat) : D'.addr sb i n = D.addr sb i n :=
  Disk.addr_congr h.ptr i n

variable {f : HostFile}

namespace Finished

theorem root (h : Finished files s D) : Stored D ROOTINO (T_DIR, rootBytes files) :=
  h.stored 0 _ rfl

theorem file (h : Finished files s D) (hf : files[j]? = some f) :
    Stored D (j + 2) (T_FILE, f.bytes) := by
  refine h.stored (j + 1) _ ?_
  rw [nodes, getElem?_cons_succ, getElem?_map, hf]
  rfl

theorem root_size (h : Finished files s D) :
    (D.ino ROOTINO).size = DESIZE * (files.length + 2) := by
  rw [h.root.size_eq, rootBytes_length]

theorem live_iff (h : Finished files s D) (hlt : files.length ≤ NINODES - 2) :
    D.Live sb i ↔ 0 < i ∧ i < files.length + 2 := by
  constructor
  · intro hl
    by_contra hi
    refine hl.2 (h.unused i ?_ hl.1)
    omega
  · rintro ⟨hpos, hi⟩
    obtain ⟨j, rfl⟩ : ∃ j, i = j + 1 := ⟨i - 1, by omega⟩
    have hj : j < (nodes files).length := by
      rw [nodes_length]
      omega
    have hst := h.stored j _ (getElem?_eq_getElem hj)
    refine ⟨?_, hst.type_eq ▸ hst.type⟩
    show j + 1 < NINODES
    dsimp only [NINODES] at hlt ⊢
    omega

end Finished

/-! ## Holes -/

theorem mul_lt_iff_lt_dataBlocks (n size : Nat) : n * BSIZE < size ↔ n < dataBlocks size := by
  unfold dataBlocks
  dsimp only [BSIZE]
  omega

theorem mul_lt_rounded (n size : Nat) : n * BSIZE < rounded size ↔ n ≤ size / BSIZE := by
  unfold rounded
  dsimp only [BSIZE]
  omega

/-- The last block of the rounded root directory is there exactly if an entry is in it. -/
theorem View.noHoles_iff (h : View D D') (hf : Finished files s D)
    (hlt : files.length ≤ NINODES - 2) :
    NoHoles sb D' ↔ (files.length + 2) % (BSIZE / DESIZE) ≠ 0 := by
  have hroot : D.Live sb ROOTINO := (hf.live_iff hlt).2 ⟨Nat.one_pos, Nat.le_add_left 2 _⟩
  have hsize := hf.root_size
  constructor
  · intro hno hmod
    have hn : (D.ino ROOTINO).size / BSIZE * BSIZE < (D'.ino ROOTINO).size := by
      rw [h.root]
      exact (mul_lt_rounded ..).2 le_rfl
    have hlast := (hf.exact.addr _ hroot _).1
      (h.addr _ _ ▸ hno ROOTINO ((h.live _).2 hroot) _ hn)
    rw [hsize] at hlast
    unfold dataBlocks at hlast
    dsimp only [BSIZE, DESIZE] at hlast hmod
    omega
  · intro hmod i hl n hn
    rw [h.addr]
    rw [h.live] at hl
    refine (hf.exact.addr i hl n).2 ?_
    by_cases hr : i = ROOTINO
    · subst hr
      rw [h.root] at hn
      have hle := (mul_lt_rounded ..).1 hn
      rw [hsize] at hle ⊢
      unfold dataBlocks
      dsimp only [BSIZE, DESIZE] at hle hmod ⊢
      omega
    · rw [h.ino i hl.1 hr] at hn
      exact (mul_lt_iff_lt_dataBlocks ..).1 hn

/-- The entries of the root directory. -/
def table (files : List HostFile) : List (List UInt8 × Nat) :=
  (dot, ROOTINO) :: (dotdot, ROOTINO) ::
    files.zipIdx.map fun f => (skipUnderscore f.1.name, f.2 + 2)

theorem rootBytes_eq (files : List HostFile) :
    rootBytes files = (table files).flatMap fun e => Dirent.encode e.1 e.2 := by
  rw [rootBytes, entries, table, flatMap_cons, flatMap_cons, flatMap_map,
    append_assoc]

theorem table_file (hf : files[j]? = some f) :
    (table files)[j + 2]? = some (skipUnderscore f.name, j + 2) := by
  rw [table, getElem?_cons_succ, getElem?_cons_succ, getElem?_map,
    getElem?_zipIdx, hf]
  simp

theorem take_drop_flatMap {α β : Type} {f : α → List β} {w : Nat} (hw : ∀ a, (f a).length = w)
    (l : List α) : ∀ (k : Nat) (a : α), l[k]? = some a →
      ((l.flatMap f).drop (w * k)).take w = f a := by
  induction l with
  | nil => intro k a h; simp at h
  | cons b l ih =>
    intro k a h
    rw [flatMap_cons]
    cases k with
    | zero =>
      cases h
      rw [Nat.mul_zero, drop_zero, take_append_of_le_length (hw _).ge,
        take_of_length_le (hw _).le]
    | succ k =>
      rw [Nat.mul_succ, Nat.add_comm, ← drop_drop, drop_left' (hw b)]
      exact ih k a h

theorem table_length (files : List HostFile) : (table files).length = files.length + 2 := by
  simp [table]

theorem Stored.content {n : Node} (h : Stored D i n) : D.content sb i = n.2 := by
  rw [Disk.content, h.size_eq, h.bytes]

variable {k : Nat}

theorem Finished.dirent (h : Finished files s D) (hv : View D D') {e : List UInt8 × Nat}
    (he : (table files)[k]? = some e) :
    D'.dirent sb ROOTINO k = ⟨e.2 % 65536, strncpy e.1⟩ := by
  have hk := (List.getElem?_eq_some_iff.1 he).1
  rw [table_length] at hk
  have hsize := h.root_size
  have hclip : clip (D.ino ROOTINO).size (DESIZE * k) DESIZE = DESIZE := by
    rw [clip, if_neg]
    rw [hsize]
    dsimp only [DESIZE]
    omega
  have hread : D.bytes sb ROOTINO (DESIZE * k) (clip (D.ino ROOTINO).size (DESIZE * k) DESIZE) =
      ((D.content sb ROOTINO).drop (DESIZE * k)).take DESIZE := by
    refine content_read ?_
    rw [hsize]
    exact Nat.mul_le_mul_left _ hk.le
  rw [hclip, h.root.content] at hread
  have hchunk : ((rootBytes files).drop (DESIZE * k)).take DESIZE = Dirent.encode e.1 e.2 := by
    rw [rootBytes_eq]
    exact take_drop_flatMap (fun e => encode_length e.1 e.2) _ k e he
  unfold Disk.dirent
  rw [bytes_congr fun o _ _ => hv.data _ o, hread, ← decode_encode, ← hchunk]

/-! ## The kernel reads the image -/

/-- A locked inode: its copy is that on the disk. -/
def Cached (x : Fs.State) (t : ISlot) (i : Nat) : Prop :=
  (x.ic t).inum = i ∧ (x.ic t).copy = x.disk.ino i

section
variable {x : Fs.State} {t : ISlot} {dev : Devsw}

theorem readi_cached (ht : Cached x t i) (hl : x.disk.Live sb i) (hd : (x.disk.ino i).type ≠ T_DEV)
    {off n : Nat} (hr : ¬ Rejected (x.disk.ino i) off n)
    (hm : x.disk.Mapped sb i off (clip (x.disk.ino i).size off n)) :
    readi sb dev t off n x =
      .ok (some (x.disk.bytes sb i off (clip (x.disk.ino i).size off n)), x) := by
  obtain ⟨rfl, hc⟩ := ht
  have hover := over_eq hc
  have hread : readi sb dev t off n x = .ok (some ((x.over t).bytes sb (x.ic t).inum off
      (clip (x.ic t).copy.size off n)), x) :=
    readi_eq (by rwa [hover]) (by rwa [hc]) (by rwa [hc]) (by rwa [hover, hc])
  rwa [hover, hc] at hread

/-- The scan stops at the first entry that has `test`, if the blocks up to it are there. -/
theorem scan_first (ht : Cached x t i) (hl : x.disk.Live sb i) (hd : (x.disk.ino i).type = T_DIR)
    (hsize : DESIZE * (k + 1) ≤ (x.disk.ino i).size) (hfit : (x.disk.ino i).size < 2 ^ 32)
    (hm : x.disk.Mapped sb i 0 (DESIZE * (k + 1))) (err : Panic) {test : Dirent → Bool}
    (htest : test (x.disk.dirent sb i k) = true)
    (hmiss : ∀ j < k, test (x.disk.dirent sb i j) = false) :
    ∀ fuel j, j ≤ k → k - j < fuel → scan sb dev t err test fuel (DESIZE * j) x =
      .ok (some (DESIZE * k, x.disk.dirent sb i k), x) := by
  intro fuel
  induction fuel with
  | zero => intro j _ hlt; omega
  | succ fuel ih =>
    intro j hj hlt
    have hend : DESIZE * j + DESIZE ≤ DESIZE * (k + 1) := by
      dsimp only [DESIZE]
      omega
    have hclip : clip (x.disk.ino i).size (DESIZE * j) DESIZE = DESIZE := by
      rw [clip, if_neg (by omega)]
    have hr : ¬ Rejected (x.disk.ino i) (DESIZE * j) DESIZE := by
      unfold Rejected
      omega
    have hmapped : x.disk.Mapped sb i (DESIZE * j) DESIZE := fun b hn h1 h2 =>
      hm b (by omega) (by omega) (by omega)
    have hread : readi sb dev t (DESIZE * j) DESIZE x = .ok (some (x.disk.bytes sb i (DESIZE * j)
        (clip (x.disk.ino i).size (DESIZE * j) DESIZE)), x) :=
      readi_cached ht hl (by rw [hd]; decide) hr (by rwa [hclip])
    rw [hclip] at hread
    have hlen : (x.disk.bytes sb i (DESIZE * j) DESIZE).length = DESIZE := by
      simp [Disk.bytes]
    have hcopy : (x.ic t).copy.size = (x.disk.ino i).size := by rw [ht.2]
    unfold scan
    rw [seq_get, if_pos (by rw [hcopy]; dsimp only [DESIZE] at *; omega), seq_ok hread]
    show (if _ ≠ DESIZE then _ else if test (x.disk.dirent sb i j) then _ else _ : Fs.M _) x = _
    rw [if_neg (not_not.2 hlen)]
    rcases Nat.lt_or_eq_of_le hj with hlt' | rfl
    · rw [if_neg (by rw [hmiss j hlt']; decide)]
      exact ih (j + 1) hlt' (by omega)
    · rw [if_pos htest]
      rfl

end

/-- `readsb` -/
def readsb (v : Bytes) : List Nat := (List.range 7).map v.word

theorem readsb_superblock : readsb superblock =
    [sb.size, sb.nblocks, sb.ninodes, nlog, 2, layout.inodestart, layout.bmapstart] := by
  decide

/-- A list of files as `mkfs` expects it. -/
structure Admissible (files : List HostFile) : Prop where
  slash : ∀ f ∈ files, 47 ∉ f.name
  names : (dot :: dotdot :: files.map fun f => (skipUnderscore f.name).take DIRSIZ).Nodup
  size : ∀ f ∈ files, f.bytes.length ≤ MAXFILE * BSIZE
  count : files.length ≤ NINODES - 2
  blocks : usedBlocks (DESIZE * (files.length + 2)) +
    (files.map fun f => usedBlocks f.bytes.length).sum ≤ FSSIZE - nmeta

theorem Admissible.acceptable (h : Admissible files) : Acceptable files := by
  have hroot := rootBytes_length files
  have hcount := h.count
  refine ⟨h.slash, fun n hn => ?_, ?_⟩
  · rcases mem_cons.1 hn with rfl | hn
    · rw [hroot]
      dsimp only [DESIZE, NINODES, MAXFILE, NDIRECT, NINDIRECT, BSIZE] at hcount ⊢
      omega
    · obtain ⟨f, hf, rfl⟩ := mem_map.1 hn
      exact h.size f hf
  · have htotal : totalBlocks (nodes files) = usedBlocks (DESIZE * (files.length + 2)) +
        (files.map fun f => usedBlocks f.bytes.length).sum := by
      rw [totalBlocks, nodes, map_cons, sum_cons, hroot, map_map]
      rfl
    rw [htotal]
    exact (Nat.add_le_add_left h.blocks nmeta).trans (by decide)

theorem not_mem_skipUnderscore (h : 0 ∉ name) : 0 ∉ skipUnderscore name := by
  cases name with
  | nil => exact h
  | cons c name =>
    show 0 ∉ if c = 95 then name else c :: name
    split
    · exact fun hm => h (mem_cons_of_mem _ hm)
    · exact h

theorem cname_of_not_mem (h : 0 ∉ name) : cname name = name.take DIRSIZ := by
  refine takeWhile_eq_self_iff.2 fun c hc => decide_eq_true ?_
  rintro rfl
  exact h (mem_of_mem_take hc)

/-- The names of the entries, as they are compared. -/
theorem table_names (files : List HostFile) : (table files).map (fun e => cname e.1) =
    dot :: dotdot :: files.map fun f => (skipUnderscore f.name).take DIRSIZ := by
  have hname : ∀ f : HostFile,
      cname (skipUnderscore f.name) = (skipUnderscore f.name).take DIRSIZ :=
    fun f => cname_of_not_mem (not_mem_skipUnderscore f.name_ok)
  rw [table, map_cons, map_cons, map_map]
  refine congrArg₂ _ (by decide) (congrArg₂ _ (by decide) ?_)
  refine ext_getElem? fun j => ?_
  simp only [getElem?_map, getElem?_zipIdx, Option.map_map]
  refine congrArg (Option.map · _) (funext fun f => hname f)

/-- What the kernel finds on the image, in a state `x` whose disk it is. -/
structure Readable (files : List HostFile) (s : Image) (x : Fs.State) : Prop where
  /-- `dirlookup` finds the entry of each file and takes its inode -/
  lookup : ∀ j f, files[j]? = some f → ∀ t, Cached x t ROOTINO → ∀ dev name,
    cname name = cname (skipUnderscore f.name) →
    dirlookup sb dev t name x = (do let ip ← iget (j + 2); pure (some (ip, DESIZE * (j + 2)))) x
  /-- `readi` from offset 0 gives the bytes of the file -/
  read : ∀ j f, files[j]? = some f → ∀ t, Cached x t (j + 2) → ∀ dev n, n < 2 ^ 32 →
    readi sb dev t 0 n x = .ok (some (f.bytes.take n), x)
  /-- the blocks before `freeblock` are marked, and all that files hold are among them -/
  marked : ∀ b, b < s.freeblock → x.disk.bit b = true
  held : ∀ r, x.disk.ptr sb r < s.freeblock
  /-- and as long as a block is marked, `balloc` returns others -/
  balloc : ∀ b, ∀ y : Fs.State, y.disk.bit b = true →
    Run (fun _ => True) (fun r y' => r ≠ b ∧ y'.disk.bit b = true) (Fs.balloc sb) y

theorem balloc_other {g : Superblock} {b : Nat} {y : Fs.State} (h : y.disk.bit b = true) :
    Run (fun _ => True) (fun r y' => r ≠ b ∧ y'.disk.bit b = true) (Fs.balloc g) y := by
  refine ((balloc_spec (n := 0) (False.elim : False → _)).mono ?_).error_mono fun _ _ => trivial
  rintro r y' ⟨rfl, hfree, -⟩
  have hne : r ≠ b := by
    rintro rfl
    rw [h] at hfree
    cases hfree
  refine ⟨hne, ?_⟩
  show Disk.bit (y.disk.setBit r true) b = true
  rw [Disk.setBit_apply, if_neg (Ne.symm hne), h]

section
variable {x : Fs.State}

theorem Finished.mapped (h : Finished files s D) (hv : View D x.disk) (hl : D.Live sb i) {n : Nat}
    (hn : n ≤ (D.ino i).size) : x.disk.Mapped sb i 0 n := by
  intro b _ _ hb
  rw [hv.addr]
  refine (h.exact.addr i hl b).2 ((mul_lt_iff_lt_dataBlocks ..).1 ?_)
  omega

theorem Finished.lookup (h : Finished files s D) (hv : View D x.disk) (ha : Admissible files)
    (hf : files[j]? = some f) {t : ISlot} (ht : Cached x t ROOTINO) (dev : Devsw)
    (hname : cname name = cname (skipUnderscore f.name)) :
    dirlookup sb dev t name x =
      (do let ip ← iget (j + 2); pure (some (ip, DESIZE * (j + 2)))) x := by
  have hcount := ha.count
  have hj := (List.getElem?_eq_some_iff.1 hf).1
  have hroot : D.Live sb ROOTINO := (h.live_iff hcount).2 ⟨Nat.one_pos, Nat.le_add_left 2 _⟩
  have hend : DESIZE * (j + 2 + 1) ≤ (D.ino ROOTINO).size := by
    rw [h.root_size]
    exact Nat.mul_le_mul_left _ (by omega)
  have hround : (x.disk.ino ROOTINO).size = rounded (D.ino ROOTINO).size := by rw [hv.root]
  have hle : (D.ino ROOTINO).size ≤ rounded (D.ino ROOTINO).size ∧
      rounded (D.ino ROOTINO).size < 2 ^ 32 := by
    have := h.exact.max _ hroot
    unfold rounded
    dsimp only [MAXFILE, NDIRECT, NINDIRECT, BSIZE] at *
    omega
  have htype : (x.disk.ino ROOTINO).type = T_DIR := by
    rw [hv.root]
    exact h.root.type_eq
  have hinum : (j + 2) % 65536 = j + 2 := by
    dsimp only [NINODES] at hcount
    omega
  have hent := h.dirent hv (table_file hf)
  rw [hinum] at hent
  -- the entry is the first with this name
  have hmiss : ∀ k < j + 2, decide ((x.disk.dirent sb ROOTINO k).inum ≠ 0 ∧
      namecmp name (x.disk.dirent sb ROOTINO k).name = true) = false := by
    intro k hk
    have hkt : k < (table files).length := by
      rw [table_length]
      omega
    have he := getElem?_eq_getElem hkt
    rw [h.dirent hv he, decide_eq_false_iff_not]
    rintro ⟨-, hcmp⟩
    have hsame : cname name = cname (table files)[k].1 := by
      rw [← cname_strncpy (table files)[k].1]
      exact of_decide_eq_true hcmp
    have hnodup : ((table files).map fun e => cname e.1).Nodup := table_names files ▸ ha.names
    have hk' : k < ((table files).map fun e => cname e.1).length := by rwa [length_map]
    refine absurd ((getElem?_inj (j := j + 2) hk' hnodup).1 ?_) (Nat.ne_of_lt hk)
    rw [getElem?_map, getElem?_map, he, table_file hf]
    exact congrArg some (hsame.symm.trans hname)
  have hsize : DESIZE * (j + 2 + 1) ≤ (x.disk.ino ROOTINO).size := hend.trans (hround ▸ hle.1)
  have hscan : scan sb dev t .dirlinkRead
      (fun de => decide (de.inum ≠ 0 ∧ namecmp name de.name = true))
      (passes (x.disk.ino ROOTINO).size) (DESIZE * 0) x =
      .ok (some (DESIZE * (j + 2), x.disk.dirent sb ROOTINO (j + 2)), x) := by
    refine scan_first ht ((hv.live _).2 hroot) htype hsize (hround ▸ hle.2)
      (h.mapped hv hroot hend) .dirlinkRead ?_ hmiss _ 0 (Nat.zero_le _) ?_
    · rw [hent]
      refine decide_eq_true ⟨by dsimp only; omega, decide_eq_true ?_⟩
      rw [cname_strncpy, hname]
    · unfold passes
      dsimp only [DESIZE] at *
      omega
  unfold dirlookup
  rw [seq_get, ht.2, if_neg (not_not.2 htype)]
  refine (seq_ok hscan).trans ?_
  rw [hent]

theorem Finished.readFile (h : Finished files s D) (hv : View D x.disk)
    (hcount : files.length ≤ NINODES - 2) (hf : files[j]? = some f) {t : ISlot}
    (ht : Cached x t (j + 2)) (dev : Devsw) {n : Nat} (hn : n < 2 ^ 32) :
    readi sb dev t 0 n x = .ok (some (f.bytes.take n), x) := by
  have hj := (List.getElem?_eq_some_iff.1 hf).1
  have hst := h.file hf
  have hl : D.Live sb (j + 2) := (h.live_iff hcount).2 ⟨by omega, by omega⟩
  have hino : x.disk.ino (j + 2) = D.ino (j + 2) := hv.ino _ hl.1 (by dsimp only [ROOTINO]; omega)
  have hbytes : x.disk.bytes sb (j + 2) 0 (clip (D.ino (j + 2)).size 0 n) = f.bytes.take n := by
    rw [bytes_congr fun o _ _ => hv.data _ o, content_read (Nat.zero_le _), hst.content]
    rfl
  rw [← hbytes, ← hino]
  refine readi_cached ht ((hv.live _).2 hl) ?_ ?_ ?_
  · rw [hino, hst.type_eq]
    exact (by decide : T_FILE ≠ T_DEV)
  · unfold Rejected
    omega
  · refine h.mapped hv hl ?_
    rw [hino]
    unfold clip
    split <;> omega

end

/-- **`mkfs` and the kernel agree on the format.**  The image of an admissible list of files is
made, the superblock is that of the geometry, and on every disk that the image holds the kernel
finds the files, reads their bytes and takes none of their blocks. -/
theorem mkfs_readable (h : Admissible files) : ∃ s, mkfs files = .ok s ∧
    readsb (s.sect 1) =
      [sb.size, sb.nblocks, sb.ninodes, nlog, 2, layout.inodestart, layout.bmapstart] ∧
    ∀ x : Fs.State, layout.Holds s.sect x.disk → Readable files s x := by
  obtain ⟨s, D, hr, hf⟩ := mkfs_of_acceptable h.acceptable h.count
  refine ⟨s, hr, ?_, fun x hx => ?_⟩
  · rw [hf.super]
    exact readsb_superblock
  · have hv := hf.view hx
    refine ⟨fun j f hj t ht dev name hn => hf.lookup hv h hj ht dev hn,
      fun j f hj t ht dev n hn => hf.readFile hv h.count hj ht dev hn, fun b hb => ?_, fun r => ?_,
      fun b y hy => ?_⟩
    · rw [hv.bit b (hb.trans_le hf.high), hf.bit]
      exact decide_eq_true hb
    · rw [hv.ptr]
      have hused : D.bit (D.ptr sb r) = true := by
        by_cases h0 : D.ptr sb r = 0
        · rw [h0]
          exact hf.exact.owned.meta_used 0 sb.dataStart_pos
        · exact hf.exact.owned.used r h0
      rw [hf.bit] at hused
      exact of_decide_eq_true hused
    · generalize sb = g
      exact balloc_other hy

/-- Two files on one image. -/
theorem mkfs_readable_two : ∃ files s, files.length = 2 ∧ mkfs files = .ok s ∧
    Readable files s ⟨s.disk, fun _ => ⟨ROOTINO, 1, true, true, s.disk.ino ROOTINO⟩,
      fun _ => ⟨.none, 0, false, false, 0, 0⟩, fun _ => ⟨none, fun _ => none⟩, true⟩ := by
  have h : Admissible [emptyFile, ⟨[95, 98], by decide, [[1, 2, 3], [4]], by decide⟩] :=
    ⟨by decide, by decide, by decide, by decide, by decide⟩
  obtain ⟨s, hr, -, hread⟩ := mkfs_readable h
  exact ⟨_, s, rfl, hr, hread _ (holds_disk s)⟩

/-! ## The image that the file system starts with -/

theorem Finished.dirent_tail (h : Finished files s D) (hv : View D D')
    (hk : files.length + 2 ≤ k) : (D'.dirent sb ROOTINO k).inum = 0 := by
  have hzero : D'.bytes sb ROOTINO (DESIZE * k) DESIZE = List.replicate DESIZE 0 := by
    refine eq_replicate_iff.2 ⟨by simp [Disk.bytes], fun c hc => ?_⟩
    obtain ⟨o, -, rfl⟩ := mem_map.1 hc
    rw [hv.data]
    refine h.root.tail _ ?_
    show (rootBytes files).length ≤ _
    rw [rootBytes_length]
    exact (Nat.mul_le_mul_left DESIZE hk).trans (Nat.le_add_right ..)
  unfold Disk.dirent
  rw [hzero]
  exact decode_zero_inum

theorem View.owned (h : View D D') (ho : Owned sb D) : Owned sb D' := by
  have hbit : ∀ b < FSSIZE, D.bit b = true → D'.bit b = true := fun b hb hu =>
    (h.bit b hb).trans hu
  refine ⟨fun r hr => ?_, fun r hr => ?_, fun r r' hr he => ?_, fun b hb => ?_⟩
  · rw [h.ptr] at hr ⊢
    exact ho.range r hr
  · rw [h.ptr] at hr ⊢
    exact hbit _ (ho.range r hr).2 (ho.used r hr)
  · rw [h.ptr] at hr he
    rw [h.ptr] at he
    exact ho.inj r r' hr he
  · exact hbit b (lt_of_lt_of_le hb (by decide)) (ho.meta_used b hb)

namespace Finished

section
variable (h : Finished files s D) (hv : View D D') (hcount : files.length ≤ NINODES - 2)
include h hv hcount

theorem dirent_file (hf : files[j]? = some f) :
    D'.dirent sb ROOTINO (j + 2) = ⟨j + 2, strncpy (skipUnderscore f.name)⟩ := by
  have hj := (List.getElem?_eq_some_iff.1 hf).1
  rw [h.dirent hv (table_file hf), Nat.mod_eq_of_lt]
  dsimp only [NINODES] at hcount
  omega

theorem live_file (hf : files[j]? = some f) : D'.Live sb (j + 2) := by
  have hj := (List.getElem?_eq_some_iff.1 hf).1
  exact (hv.live _).2 ((h.live_iff hcount).2 ⟨by omega, by omega⟩)

theorem file_of_live (hl : D'.Live sb i) (hne : i ≠ ROOTINO) :
    ∃ j f, i = j + 2 ∧ files[j]? = some f ∧ (D'.ino i).type = T_FILE ∧ (D'.ino i).nlink = 1 := by
  have hi := (h.live_iff hcount).1 ((hv.live i).1 hl)
  dsimp only [ROOTINO] at hne
  obtain ⟨j, rfl⟩ : ∃ j, i = j + 2 := ⟨i - 2, by omega⟩
  have hj := getElem?_eq_getElem (show j < files.length by omega)
  have hst := h.file hj
  rw [hv.ino _ hl.1 hne]
  exact ⟨j, _, rfl, hj, hst.type_eq, congrArg Dinode.nlink hst.ino⟩

omit hcount in
/-- An entry in use behind the first two is that of a file. -/
theorem file_of_entry (hk : 2 ≤ k) (hne : (D'.dirent sb ROOTINO k).inum ≠ 0) :
    ∃ j f, k = j + 2 ∧ files[j]? = some f := by
  have hlt : k < files.length + 2 := by
    by_contra hge
    exact hne (h.dirent_tail hv (Nat.not_lt.1 hge))
  exact ⟨k - 2, _, by omega, getElem?_eq_getElem (show k - 2 < files.length by omega)⟩

theorem root_of_dir (hl : D'.Live sb i) (ht : (D'.ino i).type = T_DIR) : i = ROOTINO := by
  by_contra hne
  obtain ⟨j, f, -, -, hfile, -⟩ := h.file_of_live hv hcount hl hne
  rw [hfile] at ht
  exact absurd ht (by decide)

theorem dirent_lt (k : Nat) : (D'.dirent sb ROOTINO k).inum < NINODES := by
  by_cases hz : (D'.dirent sb ROOTINO k).inum = 0
  · rw [hz]
    decide
  · rcases Nat.lt_or_ge k 2 with hlt | hge
    · have hk : k = 0 ∨ k = 1 := by omega
      rcases hk with rfl | rfl
      · rw [h.dirent hv (e := (dot, ROOTINO)) rfl]
        decide
      · rw [h.dirent hv (e := (dotdot, ROOTINO)) rfl]
        decide
    · obtain ⟨j, f, rfl, hf⟩ := h.file_of_entry hv hge hz
      rw [h.dirent_file hv hcount hf]
      exact (h.live_file hv hcount hf).1

end

end Finished

theorem Admissible.name_ne_dot (h : Admissible files) (hf : files[j]? = some f) :
    cname (skipUnderscore f.name) ≠ dot := by
  intro hdot
  rw [cname_of_not_mem (not_mem_skipUnderscore f.name_ok)] at hdot
  refine (nodup_cons.1 h.names).1 (mem_cons_of_mem _ ?_)
  rw [← hdot]
  exact mem_map_of_mem (mem_of_getElem? hf)

/-- The assumption of the file system's results about its first disk: an image without a hole at
the end of the root directory is such a disk. -/
theorem Finished.image (h : Finished files s D) (hv : View D D') (ha : Admissible files)
    (hmod : (files.length + 2) % (BSIZE / DESIZE) ≠ 0) : Fs.Mkfs sb D' := by
  have hcount := ha.count
  have hsize : (D'.ino ROOTINO).size = rounded (D.ino ROOTINO).size := by rw [hv.root]
  have hentries : files.length + 2 ≤ D'.entries ROOTINO := by
    rw [Disk.entries, hsize, h.root_size]
    unfold rounded
    dsimp only [DESIZE, BSIZE]
    omega
  have h0 : D'.dirent sb ROOTINO 0 = ⟨ROOTINO, strncpy dot⟩ := h.dirent hv (e := (dot, ROOTINO)) rfl
  have h1 : D'.dirent sb ROOTINO 1 = ⟨ROOTINO, strncpy dotdot⟩ :=
    h.dirent hv (e := (dotdot, ROOTINO)) rfl
  refine ⟨⟨hv.owned h.exact.owned, (hv.noHoles_iff h hcount).2 hmod, fun i hl ht => ?_,
    fun i hl ht k hk => ?_⟩, ⟨?_, ?_⟩, ⟨by omega, by rw [h0], by rw [h0]; decide, by rw [h1],
    by rw [h1]; decide⟩, fun i hl hne => ?_, fun k hk _ hne => ?_, ?_⟩
  · rw [h.root_of_dir hv hcount hl ht, hsize]
    unfold rounded
    dsimp only [DESIZE, BSIZE]
    omega
  · rw [h.root_of_dir hv hcount hl ht]
    exact h.dirent_lt hv hcount k
  · rw [hv.root]
    exact h.root.type_eq
  · rw [hv.root]
    exact congrArg Dinode.nlink h.root.ino
  · obtain ⟨j, f, rfl, hf, htype, hlink⟩ := h.file_of_live hv hcount hl hne
    have hj := (List.getElem?_eq_some_iff.1 hf).1
    exact ⟨htype, hlink, j + 2, by omega, by omega, by rw [h.dirent_file hv hcount hf]⟩
  · obtain ⟨j, f, rfl, hf⟩ := h.file_of_entry hv hk hne
    rw [h.dirent_file hv hcount hf]
    refine ⟨h.live_file hv hcount hf, by dsimp only [ROOTINO]; omega, ?_, fun k' hk' _ he => ?_⟩
    · rw [cname_strncpy]
      exact ha.name_ne_dot hf
    · dsimp only at he
      obtain ⟨j', f', rfl, hf'⟩ := h.file_of_entry hv hk' (by omega)
      rw [h.dirent_file hv hcount hf'] at he
      exact he
  · rw [hv.ino 0 (by decide) (by decide)]
    exact h.unused 0 (.inl rfl) (by decide)

/-- What `mkfs` writes, unless the entries fill the last block of the root directory, is such a disk,
and in every run of the kernel from it no block is owned twice or missing. -/
theorem mkfs_starts (h : Admissible files) (hmod : (files.length + 2) % (BSIZE / DESIZE) ≠ 0) :
    ∃ s, mkfs files = .ok s ∧ ∀ D, layout.Holds s.sect D → Fs.Mkfs sb D ∧
      ∀ dev x, ((machine sb dev (WellFormed sb)).startAt (boot D)).Reach x → Ok sb x.disk := by
  obtain ⟨s, D₀, hr, hf⟩ := mkfs_of_acceptable h.acceptable h.count
  refine ⟨s, hr, fun D hD => ?_⟩
  have hm := hf.image (hf.view hD) h hmod
  refine ⟨hm, fun dev x hx => ?_⟩
  exact (reach_idle (.of_startAt (.init ⟨D, hm.wellFormed, rfl⟩) hx)).good.disk

theorem mkfs_starts_one : ∃ s, mkfs [emptyFile] = .ok s ∧ Fs.Mkfs sb s.disk := by
  have h : Admissible [emptyFile] := ⟨by decide, by decide, by decide, by decide, by decide⟩
  obtain ⟨s, hr, hs⟩ := mkfs_starts h (by decide)
  exact ⟨s, hr, (hs _ (holds_disk s)).1⟩

end Xv6.Mkfs
