import Xv6.Fs.Disk

/-!
# The naming tree

What the system calls do to names and link counts, without blocks, bytes and the
cache.  A call takes at most one operation `Op`: it adds a name, adds an inode with
its name, or removes a name.  Then inodes that have no links may be freed.

`Exact` is the law of the link counts: the count of every inode is the number of
entries, other than `.`, that name it from directories that are linked themselves.
It is kept as long as nothing is put into a directory without links.
-/

namespace Xv6.Fs

/-- A free inode has type 0, no links and no entries. -/
@[ext]
structure Tree where
  type : Nat → BitVec 16
  nlink : Nat → BitVec 16
  ent : Nat → Nat → Dirent

namespace Tree

def setLink (v : Tree) (i : Nat) (n : BitVec 16) : Tree :=
  { v with nlink := fun j => if j = i then n else v.nlink j }

def setEnt (v : Tree) (d k : Nat) (e : Dirent) : Tree :=
  { v with ent := fun d' k' => if d' = d ∧ k' = k then e else v.ent d' k' }

/-- Inode `i` without links and entries, of type `t`. -/
def reset (v : Tree) (i : Nat) (t : BitVec 16) : Tree where
  type := fun j => if j = i then t else v.type j
  nlink := fun j => if j = i then 0 else v.nlink j
  ent := fun d k => if d = i then ⟨0, []⟩ else v.ent d k

/-- `..` of the directory `d`. -/
def up (v : Tree) (d : Nat) : Nat := (v.ent d 1).inum

/-- An inode and its first name. -/
def newFile (v : Tree) (i d k : Nat) (t : BitVec 16) (name : List UInt8) : Tree :=
  ((v.reset i t).setLink i 1).setEnt d k ⟨i, name⟩

def newDir (v : Tree) (i d k : Nat) (name : List UInt8) : Tree :=
  (((((v.reset i T_DIR).setLink i 1).setLink d (v.nlink d + 1)).setEnt i 0 ⟨i, strncpy dot⟩).setEnt
    i 1 ⟨d, strncpy dotdot⟩).setEnt d k ⟨i, name⟩

/-- The entry `k` of `d` and its link; a directory was also a link to its parent. -/
def unname (v : Tree) (d k : Nat) (e : Dirent) : Tree :=
  let i := (v.ent d k).inum
  let w := (if v.type i = T_DIR then v.setLink d (v.nlink d - 1) else v).setEnt d k e
  w.setLink i (w.nlink i - 1)

/-- What one call does to the tree.  A new name is put into a directory that has `into`, and the
entry `k` of `d` is removed if `gone d k`. -/
inductive Op (into : Nat → Prop) (gone : Nat → Nat → Prop) (v : Tree) : Tree → Prop
  | same : Op into gone v v
  | link {i d k : Nat} {name : List UInt8} (hp : into d) (hi : i ≠ 0)
      (hil : v.type i ≠ 0) (hif : v.type i ≠ T_DIR) (hd : v.type d = T_DIR)
      (hk : (v.ent d k).inum = 0)
      (hn : ∀ j, (v.ent d j).inum ≠ 0 → cname (v.ent d j).name ≠ cname name) :
      Op into gone v ((v.setLink i (v.nlink i + 1)).setEnt d k ⟨i, strncpy name⟩)
  | create {i d k : Nat} {t : BitVec 16} {name : List UInt8} (hp : into d) (hi : i ≠ 0)
      (hfree : v.type i = 0) (ht : t ≠ 0) (htd : t ≠ T_DIR) (hd : v.type d = T_DIR)
      (hk : (v.ent d k).inum = 0)
      (hn : ∀ j, (v.ent d j).inum ≠ 0 → cname (v.ent d j).name ≠ cname name) :
      Op into gone v (v.newFile i d k t (strncpy name))
  | mkdir {i d k : Nat} {name : List UInt8} (hp : into d) (hi : i ≠ 0) (hd0 : d ≠ 0)
      (hfree : v.type i = 0) (hd : v.type d = T_DIR) (hk : (v.ent d k).inum = 0)
      (hn : ∀ j, (v.ent d j).inum ≠ 0 → cname (v.ent d j).name ≠ cname name) :
      Op into gone v (v.newDir i d k (strncpy name))
  | unlink {d k : Nat} {name : List UInt8} {e : Dirent} (hp : gone d k)
      (hd : v.type d = T_DIR) (hi : (v.ent d k).inum ≠ 0) (he : e.inum = 0)
      (hname : cname (v.ent d k).name = cname name) (hdot : cname name ≠ dot)
      (hdotdot : cname name ≠ dotdot)
      (hempty : v.type (v.ent d k).inum = T_DIR → ∀ j, 2 ≤ j →
        (v.ent (v.ent d k).inum j).inum = 0) :
      Op into gone v (v.unname d k e)

variable {w : Tree} {gone : Nat → Nat → Prop}

theorem Op.mono {into into' : Nat → Prop} {v : Tree}
    (h : Op into gone v w) (hi : ∀ d, into d → into' d) : Op into' gone v w := by
  cases h with
  | same => exact .same
  | link hp h1 h2 h3 h4 h5 h6 => exact .link (hi _ hp) h1 h2 h3 h4 h5 h6
  | create hp h1 h2 h3 h4 h5 h6 h7 => exact .create (hi _ hp) h1 h2 h3 h4 h5 h6 h7
  | mkdir hp h1 h2 h3 h4 h5 h6 => exact .mkdir (hi _ hp) h1 h2 h3 h4 h5 h6
  | unlink hp h1 h2 h3 h4 h5 h6 h7 => exact .unlink hp h1 h2 h3 h4 h5 h6 h7

/-- Inodes without links are freed. -/
inductive Frees : Tree → Tree → Prop
  | refl {v : Tree} : Frees v v
  | free {v w : Tree} {i : Nat} (h : v.nlink i = 0) (hw : Frees (v.reset i 0) w) : Frees v w

theorem Frees.trans {u v : Tree} (h : Frees u v) (h' : Frees v w) : Frees u w := by
  induction h with
  | refl => exact h'
  | free h0 _ ih => exact .free h0 (ih h')

/-! ## Link counts -/

/-- The entries other than `.` that name `i` from linked directories. -/
def refs (v : Tree) (i : Nat) : Set (Nat × Nat) :=
  {x | v.type x.1 = T_DIR ∧ v.nlink x.1 ≠ 0 ∧ x.2 ≠ 0 ∧ (v.ent x.1 x.2).inum = i}

structure Exact (v : Tree) : Prop where
  /-- `.` and `..` come first -/
  self : ∀ d, v.type d = T_DIR → (v.ent d 0).inum = d ∧ cname (v.ent d 0).name = dot
  above : ∀ d, v.type d = T_DIR → v.up d ≠ 0 ∧ cname (v.ent d 1).name = dotdot
  plain : ∀ d k, (v.ent d k).inum ≠ 0 → k ≠ 0 → cname (v.ent d k).name ≠ dot
  /-- a directory without links holds no names -/
  bare : ∀ d, v.type d = T_DIR → v.nlink d = 0 → ∀ k, 2 ≤ k → (v.ent d k).inum = 0
  finite : ∀ i, i ≠ 0 → (v.refs i).Finite
  count : ∀ i, i ≠ 0 → (v.nlink i).toNat = (v.refs i).ncard
  root : v.type ROOTINO = T_DIR ∧ v.nlink ROOTINO ≠ 0 ∧ v.up ROOTINO = ROOTINO
  rootless : ∀ x ∈ v.refs ROOTINO, x.2 < 2
  /-- a linked directory is named in its parent, and nowhere else -/
  parent : ∀ d, v.type d = T_DIR → v.nlink d ≠ 0 → d ≠ ROOTINO →
    ∃ k, 2 ≤ k ∧ (v.up d, k) ∈ v.refs d
  unique : ∀ d, v.type d = T_DIR → ∀ x ∈ v.refs d, ∀ y ∈ v.refs d, 2 ≤ x.2 → 2 ≤ y.2 → x = y
  none : ∀ i, v.type i = 0 → v.nlink i = 0
  zero : v.type 0 = 0

/-! ## How the entries change -/

section
variable {v : Tree} {i d j k : Nat} {e : Dirent} {n t : BitVec 16}

@[simp] theorem mem_refs {x : Nat × Nat} : x ∈ v.refs i ↔
    v.type x.1 = T_DIR ∧ v.nlink x.1 ≠ 0 ∧ x.2 ≠ 0 ∧ (v.ent x.1 x.2).inum = i := Iff.rfl

/-- An inode that is no linked directory before and after. -/
theorem refs_reset (h : v.type i ≠ T_DIR ∨ v.nlink i = 0) : (v.reset i t).refs = v.refs := by
  funext j
  ext x
  simp only [mem_refs, reset]
  by_cases hx : x.1 = i
  · simp only [hx, if_pos]
    grind
  · simp only [if_neg hx]

/-- The directory stays linked or unlinked, or names nothing. -/
theorem refs_setLink (h : v.type i = T_DIR → (n = 0 ↔ v.nlink i = 0) ∨
    ∀ k, k ≠ 0 → (v.ent i k).inum ≠ j) : (v.setLink i n).refs j = v.refs j := by
  ext x
  simp only [mem_refs, setLink]
  by_cases hx : x.1 = i
  · simp only [hx, if_pos]
    grind
  · simp only [if_neg hx]

theorem refs_setEnt_dot : (v.setEnt d 0 e).refs = v.refs := by
  funext j
  ext x
  simp only [mem_refs, setEnt]
  grind

/-- A name where there was none. -/
theorem refs_name (hd : v.type d = T_DIR) (hl : v.nlink d ≠ 0) (hk : k ≠ 0)
    (h0 : (v.ent d k).inum = 0) (hj : j ≠ 0) :
    (v.setEnt d k e).refs j = if j = e.inum then insert (d, k) (v.refs j) else v.refs j := by
  ext ⟨d', k'⟩
  split <;> simp only [mem_refs, setEnt, Set.mem_insert_iff, Prod.mk.injEq] <;> grind

theorem refs_erase (he : e.inum = 0) (hj : j ≠ 0) :
    (v.setEnt d k e).refs j = v.refs j \ {(d, k)} := by
  ext ⟨d', k'⟩
  simp only [mem_refs, setEnt, Set.mem_sdiff, Set.mem_singleton_iff, Prod.mk.injEq]
  grind

end

/-! ## The operations keep the counts exact -/

section
variable {v : Tree} {i d k : Nat} {name : List UInt8} (h : v.Exact)
include h

theorem Exact.dir_ne_zero (hd : v.type d = T_DIR) : d ≠ 0 := by
  rintro rfl
  rw [h.zero] at hd
  cases hd

theorem Exact.two_le (hd : v.type d = T_DIR) (h0 : (v.ent d k).inum = 0) : 2 ≤ k := by
  have hs := (h.self d hd).1
  have ho := (h.above d hd).1
  have hd0 := h.dir_ne_zero hd
  unfold up at ho
  by_contra hlt
  obtain rfl | rfl : k = 0 ∨ k = 1 := by omega
  · exact hd0 (hs.symm.trans h0)
  · exact ho h0

theorem Exact.link (hi : i ≠ 0) (hif : v.type i ≠ T_DIR) (hil : v.type i ≠ 0)
    (hd : v.type d = T_DIR) (hdl : v.nlink d ≠ 0) (hk : (v.ent d k).inum = 0)
    (hn : cname name ≠ Fs.dot) (hw : (v.nlink i).toNat + 1 < 65536) :
    ((v.setLink i (v.nlink i + 1)).setEnt d k ⟨i, strncpy name⟩).Exact := by
  have hk2 := h.two_le hd hk
  have hdi : d ≠ i := fun hc => hif (hc ▸ hd)
  have hcount : (v.nlink i + 1).toNat = (v.nlink i).toNat + 1 := by
    rw [BitVec.toNat_add]
    exact Nat.mod_eq_of_lt hw
  have hlink : ∀ j, j ≠ i → (v.setLink i (v.nlink i + 1)).nlink j = v.nlink j :=
    fun j hj => if_neg hj
  have hent : ∀ d' k', k' < 2 → ((v.setLink i (v.nlink i + 1)).setEnt d k
      ⟨i, strncpy name⟩).ent d' k' = v.ent d' k' := fun d' k' hk' => if_neg (by omega)
  have hrefs : ∀ j, j ≠ 0 → ((v.setLink i (v.nlink i + 1)).setEnt d k ⟨i, strncpy name⟩).refs j =
      if j = i then insert (d, k) (v.refs j) else v.refs j := by
    intro j hj
    rw [refs_name (by exact hd) (by rw [hlink d hdi]; exact hdl) (by omega) (by exact hk) hj,
      refs_setLink fun hc => absurd hc hif]
  have hdir : ∀ j, v.type j = T_DIR → j ≠ 0 → ((v.setLink i (v.nlink i + 1)).setEnt d k
      ⟨i, strncpy name⟩).refs j = v.refs j := by
    intro j hj hj0
    have hji : j ≠ i := fun hc => hif (hc ▸ hj)
    rw [hrefs j hj0, if_neg hji]
  refine ⟨fun d' hd' => ?_, fun d' hd' => ?_, fun d' k' => ?_, fun d' hd' hl k' hk' => ?_,
    fun j hj => ?_, fun j hj => ?_, ?_, ?_, fun d' hd' hl hr => ?_, fun d' hd' => ?_, ?_, h.zero⟩
  · rw [hent d' 0 (by omega)]
    exact h.self d' hd'
  · unfold up
    rw [hent d' 1 (by omega)]
    exact h.above d' hd'
  · change ((if d' = d ∧ k' = k then _ else _ : Dirent)).inum ≠ 0 → _ →
      cname ((if d' = d ∧ k' = k then _ else _ : Dirent)).name ≠ _
    split
    · intro _ _
      rw [cname_strncpy]
      exact hn
    · exact h.plain d' k'
  · change ((if d' = d ∧ k' = k then _ else _ : Dirent)).inum = 0
    have hdi' : d' ≠ i := fun hc => hif (hc ▸ hd')
    have hl' : v.nlink d' = 0 := (hlink d' hdi').symm.trans hl
    have hdd : d' ≠ d := fun hc => hdl (hc ▸ hl')
    rw [if_neg fun hc => hdd hc.1]
    exact h.bare d' hd' hl' k' hk'
  · rw [hrefs j hj]
    split
    · exact (h.finite j hj).insert _
    · exact h.finite j hj
  · rw [hrefs j hj]
    change (if j = i then v.nlink i + 1 else v.nlink j).toNat = _
    split
    next hji =>
      subst hji
      rw [Set.ncard_insert_of_notMem (fun hc => hj (hc.2.2.2.symm.trans hk)) (h.finite j hj),
        ← h.count j hj, hcount]
    next hji => exact h.count j hj
  · obtain ⟨h1, h2, h3⟩ := h.root
    refine ⟨h1, ?_, ?_⟩
    · exact fun hc => h2 ((hlink _ fun hc => hif (hc ▸ h1)).symm.trans hc)
    · unfold up
      rw [hent _ 1 (by omega)]
      exact h3
  · rw [hdir _ h.root.1 (by decide)]
    exact h.rootless
  · have hdi' : d' ≠ i := fun hc => hif (hc ▸ hd')
    rw [hdir d' hd' (h.dir_ne_zero hd')]
    unfold up
    rw [hent d' 1 (by omega)]
    exact h.parent d' hd' (fun hc => hl ((hlink d' hdi').trans hc)) hr
  · rw [hdir d' hd' (h.dir_ne_zero hd')]
    exact h.unique d' hd'
  · intro j hj
    exact (hlink j fun hc => hil (hc ▸ hj)).trans (h.none j hj)

/-- An inode without links becomes free, or a free one a file that has no name yet. -/
theorem Exact.reset {t : BitVec 16} (hi : i = 0 → t = 0) (h0 : v.nlink i = 0) (ht : t ≠ T_DIR) :
    (v.reset i t).Exact := by
  have hrefs : (v.reset i t).refs = v.refs := refs_reset (.inr h0)
  have htype : ∀ j, (v.reset i t).type j = T_DIR → j ≠ i ∧ v.type j = T_DIR := by
    intro j hj
    change (if j = i then t else v.type j) = T_DIR at hj
    split at hj
    · exact absurd hj ht
    next hji => exact ⟨hji, hj⟩
  have hlink : ∀ j, (v.reset i t).nlink j = v.nlink j := by
    intro j
    change (if j = i then 0 else v.nlink j) = _
    split
    next hji => rw [hji, h0]
    · rfl
  have hent : ∀ d k, d ≠ i → (v.reset i t).ent d k = v.ent d k := fun d k hd => if_neg hd
  have hroot : ROOTINO ≠ i := fun hc => h.root.2.1 (hc ▸ h0)
  refine ⟨fun d hd => ?_, fun d hd => ?_, fun d k => ?_, fun d hd hl => ?_, fun j hj => ?_,
    fun j hj => ?_, ⟨?_, ?_, ?_⟩, ?_, fun d hd hl hr => ?_, fun d hd => ?_, fun j hj => ?_, ?_⟩
  · rw [hent d 0 (htype d hd).1]
    exact h.self d (htype d hd).2
  · unfold up
    rw [hent d 1 (htype d hd).1]
    exact h.above d (htype d hd).2
  · change (if d = i then (⟨0, []⟩ : Dirent) else v.ent d k).inum ≠ 0 → _ →
      cname (if d = i then (⟨0, []⟩ : Dirent) else v.ent d k).name ≠ _
    split
    · exact fun hc => absurd rfl hc
    · exact h.plain d k
  · intro k hk
    rw [hent d k (htype d hd).1]
    exact h.bare d (htype d hd).2 ((hlink d).symm.trans hl) k hk
  · rw [hrefs]
    exact h.finite j hj
  · rw [hrefs, hlink]
    exact h.count j hj
  · exact (if_neg hroot).trans h.root.1
  · rw [hlink]
    exact h.root.2.1
  · unfold up
    rw [hent _ 1 hroot]
    exact h.root.2.2
  · rw [hrefs]
    exact h.rootless
  · rw [hrefs]
    unfold up
    rw [hent d 1 (htype d hd).1]
    exact h.parent d (htype d hd).2 (fun hc => hl ((hlink d).trans hc)) hr
  · rw [hrefs]
    exact h.unique d (htype d hd).2
  · rw [hlink]
    change (if j = i then t else v.type j) = 0 at hj
    split at hj
    next hji => rw [hji, h0]
    · exact h.none j hj
  · change (if 0 = i then t else v.type 0) = 0
    split
    next hi0 => exact hi hi0.symm
    · exact h.zero

theorem Exact.newFile (hi : i ≠ 0) (hfree : v.type i = 0) {t : BitVec 16} (ht : t ≠ 0)
    (htd : t ≠ T_DIR) (hd : v.type d = T_DIR) (hdl : v.nlink d ≠ 0)
    (hk : (v.ent d k).inum = 0) (hn : cname name ≠ Fs.dot) :
    (v.newFile i d k t (strncpy name)).Exact := by
  have hdi : d ≠ i := by
    rintro rfl
    rw [hd] at hfree
    cases hfree
  have hti : (v.reset i t).type i = t := if_pos rfl
  have hli : (v.reset i t).nlink i = 0 := if_pos rfl
  have := (h.reset (fun hc => absurd hc hi) (h.none i hfree) htd).link hi (by rwa [hti]) (by rwa [hti])
    (d := d) (k := k) ((if_neg hdi).trans hd) (fun hc => hdl ((if_neg hdi).symm.trans hc))
    (by rw [← hk]; exact congrArg Dirent.inum (if_neg hdi)) hn (by rw [hli]; decide)
  rw [hli] at this
  exact this

theorem Exact.newDir (hi : i ≠ 0) (hfree : v.type i = 0) (hd : v.type d = T_DIR)
    (hdl : v.nlink d ≠ 0) (hk : (v.ent d k).inum = 0) (hn : cname name ≠ Fs.dot)
    (hw : (v.nlink d).toNat + 1 < 65536) : (v.newDir i d k (strncpy name)).Exact := by
  have hk2 := h.two_le hd hk
  have hd0 := h.dir_ne_zero hd
  have hdi : d ≠ i := by
    rintro rfl
    rw [hd] at hfree
    cases hfree
  have hil := h.none i hfree
  have hir : ROOTINO ≠ i := fun hc => h.root.2.1 (hc ▸ hil)
  have hcount : (v.nlink d + 1).toNat = (v.nlink d).toNat + 1 := by
    rw [BitVec.toNat_add]
    exact Nat.mod_eq_of_lt hw
  have hdl' : v.nlink d + 1 ≠ 0 := by
    intro hc
    rw [hc] at hcount
    simp at hcount
  have hri : v.refs i = ∅ := by
    rw [← Set.ncard_eq_zero (h.finite i hi), ← h.count i hi, hil]
    rfl
  have hrefs : ∀ j, j ≠ 0 → (v.newDir i d k (strncpy name)).refs j =
      if j = i then {(d, k)} else if j = d then insert (i, 1) (v.refs d) else v.refs j := by
    intro j hj
    unfold Tree.newDir
    rw [refs_name _ _ (by omega) _ hj, refs_name _ _ one_ne_zero _ hj, refs_setEnt_dot,
      refs_setLink, refs_setLink, refs_reset (.inr hil)]
    · grind
    all_goals simp only [setEnt, setLink, Tree.reset]
    all_goals grind
  have htype : ∀ j, (v.newDir i d k (strncpy name)).type j = if j = i then T_DIR else v.type j :=
    fun _ => rfl
  have hlink : ∀ j, (v.newDir i d k (strncpy name)).nlink j =
      if j = d then v.nlink d + 1 else if j = i then 1 else v.nlink j := by
    intro j
    simp only [Tree.newDir, setEnt, setLink, Tree.reset]
    grind
  have hent : ∀ d' k', (v.newDir i d k (strncpy name)).ent d' k' =
      if d' = d ∧ k' = k then ⟨i, strncpy name⟩ else if d' = i ∧ k' = 1 then ⟨d, strncpy dotdot⟩
      else if d' = i ∧ k' = 0 then ⟨i, strncpy dot⟩ else if d' = i then ⟨0, []⟩
      else v.ent d' k' := fun _ _ => rfl
  have hdot : cname (strncpy dot) = dot := by decide
  have hdotdot : cname (strncpy dotdot) = dotdot := by decide
  have hname : cname (strncpy name) ≠ dot := by rwa [cname_strncpy]
  generalize v.newDir i d k (strncpy name) = w at *
  refine ⟨?_, ?_, ?_, ?_, fun j hj => ?_, fun j hj => ?_, ?_, ?_, ?_, ?_, ?_, ?_⟩
  · have := h.self
    grind
  · have := h.above
    grind [up]
  · have := h.plain
    grind
  · have := h.bare
    grind
  · rw [hrefs j hj]
    have := h.finite
    split_ifs
    · exact Set.finite_singleton _
    · exact (h.finite d hd0).insert _
    · exact h.finite j hj
  · rw [hrefs j hj, hlink]
    have hout : (i, 1) ∉ v.refs d := fun hc => hc.2.1 hil
    by_cases hji : j = i
    · rw [if_neg (hji ▸ hdi.symm), if_pos hji, if_pos hji, Set.ncard_singleton]
      rfl
    by_cases hjd : j = d
    · rw [if_pos hjd, if_neg hji, if_pos hjd, Set.ncard_insert_of_notMem hout (h.finite d hd0),
        ← h.count d hd0, hcount]
    · rw [if_neg hjd, if_neg hji, if_neg hji, if_neg hjd]
      exact h.count j hj
  · have := h.root
    grind [up]
  · rw [hrefs _ (by decide), if_neg hir]
    have := h.rootless
    grind
  · intro d' hd' hl hr
    rw [hrefs d' (by grind [h.zero])]
    have := h.parent d'
    grind [up]
  · intro d' hd'
    rw [hrefs d' (by grind [h.zero])]
    have := h.unique d'
    grind
  · have := h.none
    grind
  · have := h.zero
    grind

/-- A name is found in a linked directory only, and stands for a link. -/
theorem Exact.named (hd : v.type d = T_DIR) (hk : 2 ≤ k) (hi : (v.ent d k).inum ≠ 0) :
    v.nlink d ≠ 0 ∧ (d, k) ∈ v.refs (v.ent d k).inum ∧ v.nlink (v.ent d k).inum ≠ 0 := by
  have hdl : v.nlink d ≠ 0 := fun hc => hi (h.bare d hd hc k hk)
  have hm : (d, k) ∈ v.refs (v.ent d k).inum := ⟨hd, hdl, by omega, rfl⟩
  refine ⟨hdl, hm, fun hc => ?_⟩
  have hcount := h.count _ hi
  rw [hc] at hcount
  have := (Set.ncard_eq_zero (h.finite _ hi)).mp hcount.symm
  rw [this] at hm
  exact hm

theorem Exact.unnameFile (hd : v.type d = T_DIR) (hk : 2 ≤ k) (hi : (v.ent d k).inum ≠ 0)
    (hif : v.type (v.ent d k).inum ≠ T_DIR) {e : Dirent} (he : e.inum = 0) :
    (v.unname d k e).Exact := by
  obtain ⟨hdl, hm, hl⟩ := h.named hd hk hi
  generalize hv : (v.ent d k).inum = i at *
  have hcount : (v.nlink i - 1).toNat = (v.nlink i).toNat - 1 := by
    have : v.nlink i ≠ 0 := hl
    bv_omega
  have hrefs : ∀ j, j ≠ 0 → (v.unname d k e).refs j = v.refs j \ {(d, k)} := by
    intro j hj
    simp only [unname, hv, if_neg hif]
    rw [refs_setLink (by exact fun hc => absurd hc hif), refs_erase he hj]
  have hother : ∀ j, j ≠ 0 → j ≠ i → (v.unname d k e).refs j = v.refs j := by
    intro j hj hji
    rw [hrefs j hj]
    exact Set.sdiff_singleton_eq_self fun hc => hji (hc.2.2.2.symm.trans hv)
  have htype : ∀ j, (v.unname d k e).type j = v.type j := by
    intro j
    simp only [unname, hv, if_neg hif, setEnt, setLink]
  have hlink : ∀ j, (v.unname d k e).nlink j = if j = i then v.nlink i - 1 else v.nlink j := by
    intro j
    simp only [unname, hv, if_neg hif, setEnt, setLink]
  have hent : ∀ d' k', (v.unname d k e).ent d' k' =
      if d' = d ∧ k' = k then e else v.ent d' k' := by
    intro d' k'
    simp only [unname, hv, if_neg hif, setEnt, setLink]
  generalize v.unname d k e = w at *
  refine ⟨?_, ?_, ?_, ?_, fun j hj => ?_, fun j hj => ?_, ?_, ?_, ?_, ?_, ?_, ?_⟩
  · have := h.self
    grind
  · have := h.above
    grind [up]
  · have := h.plain
    grind
  · have := h.bare
    grind
  · rw [hrefs j hj]
    exact (h.finite j hj).sdiff
  · rw [hlink]
    by_cases hji : j = i
    · rw [if_pos hji, hcount, hrefs j hj, hji, Set.ncard_sdiff_singleton_of_mem hm,
        h.count i hi]
    · rw [if_neg hji, hother j hj hji]
      exact h.count j hj
  · have := h.root
    grind [up]
  · rw [hother _ (by decide) (by grind [h.root])]
    exact h.rootless
  · intro d' hd' hl' hr
    rw [htype] at hd'
    rw [hother d' (h.dir_ne_zero hd') (by grind)]
    have := h.parent d'
    grind [up]
  · intro d' hd'
    rw [htype] at hd'
    rw [hother d' (h.dir_ne_zero hd') (by grind)]
    exact h.unique d' hd'
  · have := h.none
    grind
  · have := h.zero
    grind

/-- The only link to a directory without names in it is its own name. -/
theorem Exact.refs_empty (hd : v.type d = T_DIR) (hk : 2 ≤ k) (hv : (v.ent d k).inum = i)
    (hi : v.type i = T_DIR) (hempty : ∀ j, 2 ≤ j → (v.ent i j).inum = 0) :
    v.refs i = {(d, k)} ∧ i ≠ ROOTINO ∧ v.up i = d := by
  have hi0 := h.dir_ne_zero hi
  obtain ⟨hdl, hm, hl⟩ := h.named hd hk (hv ▸ hi0)
  rw [hv] at hm hl
  have hroot : i ≠ ROOTINO := by
    rintro rfl
    have := h.rootless _ hm
    simp only at this
    omega
  obtain ⟨k', hk', hp⟩ := h.parent i hi hl hroot
  have hup := h.unique i hi _ hp _ hm hk' hk
  refine ⟨?_, hroot, (Prod.mk.inj hup).1⟩
  ext ⟨c, n⟩
  refine ⟨fun hx => ?_, fun hx => hx ▸ hm⟩
  by_cases hn : 2 ≤ n
  · exact h.unique i hi _ hx _ hm hn hk
  · -- the `..` of a linked directory, which would have its name in `i`
    have hn1 : n = 1 := by
      have : n ≠ 0 := hx.2.2.1
      omega
    subst hn1
    have hc : v.up c = i := hx.2.2.2
    by_cases hcr : c = ROOTINO
    · subst hcr
      exact absurd (h.root.2.2.symm.trans hc).symm hroot
    · obtain ⟨k'', hk'', hp''⟩ := h.parent c hx.1 hx.2.1 hcr
      rw [hc] at hp''
      have := hempty k'' hk''
      have hcc : (v.ent i k'').inum = c := hp''.2.2.2
      exact absurd (hcc.symm.trans this) (h.dir_ne_zero hx.1)

/-- A linked directory has a link besides the `..` of a directory in it. -/
theorem Exact.two_links (hd : v.type d = T_DIR) (hdl : v.nlink d ≠ 0) (hi : i ≠ d)
    (hm : (i, 1) ∈ v.refs d) : v.nlink d - 1 ≠ 0 ∧
      (v.nlink d - 1).toNat = (v.refs d \ {(i, 1)}).ncard := by
  have hd0 := h.dir_ne_zero hd
  have hdiff : (v.nlink d - 1).toNat = (v.refs d \ {(i, 1)}).ncard := by
    rw [Set.ncard_sdiff_singleton_of_mem hm, ← h.count d hd0]
    bv_omega
  refine ⟨fun hc => ?_, hdiff⟩
  rw [hc] at hdiff
  have hempty := (Set.ncard_eq_zero (h.finite d hd0).sdiff).mp hdiff.symm
  have hother : ∃ x ∈ v.refs d, x ≠ (i, 1) := by
    by_cases hr : d = ROOTINO
    · subst hr
      exact ⟨(ROOTINO, 1), ⟨h.root.1, h.root.2.1, one_ne_zero, h.root.2.2⟩,
        fun hc => hi (Prod.mk.inj hc).1.symm⟩
    · obtain ⟨k, hk, hp⟩ := h.parent d hd hdl hr
      refine ⟨_, hp, fun hc => ?_⟩
      have := (Prod.mk.inj hc).2
      omega
  obtain ⟨x, hx, hne⟩ := hother
  have : x ∈ v.refs d \ {(i, 1)} := ⟨hx, hne⟩
  rw [hempty] at this
  exact this

theorem Exact.unnameDir (hd : v.type d = T_DIR) (hk : 2 ≤ k) (hv : (v.ent d k).inum = i)
    (hi : v.type i = T_DIR) (hempty : ∀ j, 2 ≤ j → (v.ent i j).inum = 0) {e : Dirent}
    (he : e.inum = 0) :
    (v.unname d k e).Exact ∧ (v.unname d k e).nlink i = 0 ∧ (v.unname d k e).nlink d ≠ 0 := by
  have hi0 := h.dir_ne_zero hi
  obtain ⟨hdl, hm, hl⟩ := h.named hd hk (hv ▸ hi0)
  rw [hv] at hm hl
  obtain ⟨hri, hroot, hup⟩ := h.refs_empty hd hk hv hi hempty
  have hdi : i ≠ d := by
    rintro rfl
    exact hi0 (hv.symm.trans (hempty k hk))
  obtain ⟨hdl', hcount⟩ := h.two_links hd hdl hdi ⟨hi, hl, one_ne_zero, hup⟩
  have hil : v.nlink i - 1 = 0 := by
    have := h.count i hi0
    rw [hri, Set.ncard_singleton] at this
    bv_omega
  have htype : ∀ j, (v.unname d k e).type j = v.type j := by
    intro j
    simp only [unname, hv, if_pos hi, setEnt, setLink]
  have hlink : ∀ j, (v.unname d k e).nlink j =
      if j = i then 0 else if j = d then v.nlink d - 1 else v.nlink j := by
    intro j
    simp only [unname, hv, if_pos hi, setEnt, setLink, if_neg hdi, hil]
  have hent : ∀ d' k', (v.unname d k e).ent d' k' =
      if d' = d ∧ k' = k then e else v.ent d' k' := by
    intro d' k'
    simp only [unname, hv, if_pos hi, setEnt, setLink]
  have hrefs : ∀ j, j ≠ 0 → (v.unname d k e).refs j =
      if j = i then ∅ else if j = d then v.refs d \ {(i, 1)} else v.refs j := by
    intro j hj
    ext ⟨d', k'⟩
    by_cases hd' : d' = i
    · -- the directory that is removed named its parent only
      subst hd'
      have hne : (d', k') ∉ (v.unname d k e).refs j := by
        simp only [mem_refs, hlink, if_pos]
        exact fun hc => hc.2.1 rfl
      have hnot : (d', k') ∈ v.refs j → j = d ∧ k' = 1 := by
        intro hc
        have hk' : ¬ 2 ≤ k' := fun h2 => hj (hc.2.2.2.symm.trans (hempty k' h2))
        have hk1 : k' = 1 := by
          have : k' ≠ 0 := hc.2.2.1
          omega
        subst hk1
        exact ⟨hc.2.2.2.symm.trans hup, rfl⟩
      refine iff_of_false hne ?_
      split_ifs with hji hjd
      · exact id
      · rintro ⟨hc, hc'⟩
        exact hc' (by rw [(hnot (hjd ▸ hc)).2]; rfl)
      · exact fun hc => hjd (hnot hc).1
    · have hlk : (v.unname d k e).nlink d' ≠ 0 ↔ v.nlink d' ≠ 0 := by
        rw [hlink, if_neg hd']
        split_ifs with hdd
        · rw [hdd]
          exact ⟨fun _ => hdl, fun _ => hdl'⟩
        · rfl
      have hiff : (d', k') ∈ (v.unname d k e).refs j ↔ (d', k') ∈ v.refs j ∧ (d', k') ≠ (d, k) := by
        rw [mem_refs, mem_refs, hlk, htype, hent]
        grind
      have hnot : (d, k) ∈ v.refs j → j = i := fun hc => hc.2.2.2.symm.trans hv
      rw [hiff]
      split_ifs with hji hjd
      · rw [hji, hri]
        exact ⟨fun hc => hc.2 hc.1, False.elim⟩
      · rw [hjd] at hnot ⊢
        exact ⟨fun hc => ⟨hc.1, fun he => hd' (Prod.mk.inj he).1⟩,
          fun hc => ⟨hc.1, fun he => hdi (hnot (he ▸ hc.1)).symm⟩⟩
      · exact ⟨fun hc => hc.1, fun hc => ⟨hc, fun he => hji (hnot (he ▸ hc))⟩⟩
  generalize v.unname d k e = w at *
  refine ⟨⟨?_, ?_, ?_, ?_, fun j hj => ?_, fun j hj => ?_, ?_, ?_, ?_, ?_, ?_, ?_⟩, ?_, ?_⟩
  · have := h.self
    grind
  · have := h.above
    grind [up]
  · have := h.plain
    grind
  · have := h.bare
    grind
  · rw [hrefs j hj]
    split_ifs
    · exact Set.finite_empty
    · exact (h.finite d (h.dir_ne_zero hd)).sdiff
    · exact h.finite j hj
  · rw [hrefs j hj, hlink]
    split_ifs with hji hjd
    · simp
    · rw [hcount]
    · exact h.count j hj
  · have := h.root
    grind [up]
  · rw [hrefs _ (by decide), if_neg hroot.symm]
    have := h.rootless
    grind
  · intro d' hd' hl' hr
    rw [htype] at hd'
    rw [hrefs d' (h.dir_ne_zero hd')]
    have hlk : v.nlink d' ≠ 0 ∧ d' ≠ i := by
      rw [hlink] at hl'
      grind
    obtain ⟨n, hn, hp⟩ := h.parent d' hd' hlk.1 hr
    have hup' : w.up d' = v.up d' := by
      unfold up
      rw [hent, if_neg (by omega)]
    refine ⟨n, hn, ?_⟩
    rw [hup', if_neg hlk.2]
    split_ifs with hdd
    · subst hdd
      exact ⟨hp, fun hc => absurd (Prod.mk.inj hc).2 (by omega)⟩
    · exact hp
  · intro d' hd'
    rw [htype] at hd'
    rw [hrefs d' (h.dir_ne_zero hd')]
    have := h.unique d'
    grind
  · have := h.none
    grind
  · have := h.zero
    grind
  · grind
  · grind

omit h in
theorem Exact.frees (h : v.Exact) (hf : Frees v w) : w.Exact := by
  induction hf with
  | refl => exact h
  | free h0 _ ih => exact ih (h.reset (fun _ => rfl) h0 (by decide))

/-- A name other than `.` and `..` is not among the first two entries. -/
theorem Exact.named_two_le (hd : v.type d = T_DIR) (hname : cname (v.ent d k).name = cname name)
    (hdot : cname name ≠ dot) (hdotdot : cname name ≠ dotdot) : 2 ≤ k := by
  by_contra hlt
  obtain rfl | rfl : k = 0 ∨ k = 1 := by omega
  · exact hdot (hname.symm.trans (h.self d hd).2)
  · exact hdotdot (hname.symm.trans (h.above d hd).2)

/-- What is put into a directory with links keeps the counts exact. -/
theorem Exact.op {into : Nat → Prop} (ho : Op into gone v w) (hinto : ∀ d, into d → v.nlink d ≠ 0)
    (hw : ∀ i, (v.nlink i).toNat + 1 < 65536) : w.Exact := by
  cases ho with
  | same => exact h
  | link hp hi hil hif hd hk hn =>
    have hs := h.self _ hd
    refine h.link hi hif hil hd (hinto _ hp) hk (fun hc => hn 0 ?_ (hs.2.trans hc.symm)) (hw _)
    rw [hs.1]
    exact h.dir_ne_zero hd
  | create hp hi hfree ht htd hd hk hn =>
    have hs := h.self _ hd
    refine h.newFile hi hfree ht htd hd (hinto _ hp) hk fun hc => hn 0 ?_ (hs.2.trans hc.symm)
    rw [hs.1]
    exact h.dir_ne_zero hd
  | mkdir hp hi _ hfree hd hk hn =>
    have hs := h.self _ hd
    refine h.newDir hi hfree hd (hinto _ hp) hk (fun hc => hn 0 ?_ (hs.2.trans hc.symm)) (hw _)
    rw [hs.1]
    exact h.dir_ne_zero hd
  | @unlink d k _ _ _ hd hi he hname hdot hdotdot hempty =>
    have hk := h.named_two_le hd hname hdot hdotdot
    by_cases hdir : v.type (v.ent d k).inum = T_DIR
    · exact (h.unnameDir hd hk rfl hdir (hempty hdir) he).1
    · exact h.unnameFile hd hk hi hdir he

end

/-! ## Parents -/

/-- The parent of every directory is a linked one, also of a directory without links. -/
def Rooted (v : Tree) : Prop :=
  ∀ c, v.type c = T_DIR → v.type (v.up c) = T_DIR ∧ v.nlink (v.up c) ≠ 0

section
variable {v : Tree}

/-- Then no entry dangles. -/
theorem Rooted.alive (hr : v.Rooted) (h : v.Exact) {d k : Nat} (hd : v.type d = T_DIR)
    (hi : (v.ent d k).inum ≠ 0) : v.type (v.ent d k).inum ≠ 0 := by
  by_cases hk : 2 ≤ k
  · exact fun hc => (h.named hd hk hi).2.2 (h.none _ hc)
  · obtain rfl | rfl : k = 0 ∨ k = 1 := by omega
    · rw [(h.self d hd).1, hd]
      decide
    · exact fun hc => (hr d hd).2 (h.none _ hc)

theorem Rooted.frees (hr : v.Rooted) (hf : Frees v w) : w.Rooted := by
  induction hf with
  | refl => exact hr
  | @free v w i h0 _ ih =>
    refine ih fun c hc => ?_
    simp only [up, Tree.reset] at hc ⊢
    have := hr c
    unfold up at this
    grind

/-- A directory that is another one's parent is not removed. -/
theorem Rooted.op {into : Nat → Prop} (hr : v.Rooted)
    (h : v.Exact) (ho : Op into gone v w) (hinto : ∀ d, into d → v.nlink d ≠ 0)
    (hgone : ∀ d k, gone d k → v.type (v.ent d k).inum = T_DIR →
      ∀ c, v.type c = T_DIR → c ≠ (v.ent d k).inum → v.up c ≠ (v.ent d k).inum)
    (hw : ∀ i, (v.nlink i).toNat + 1 < 65536) : w.Rooted := by
  have hsucc : ∀ i, v.nlink i + 1 ≠ 0 := by
    intro i hc
    have := hw i
    bv_omega
  cases ho with
  | same => exact hr
  | @link i d k name hp hi hil hif hd hk hn =>
    have hk2 := h.two_le hd hk
    intro c hc
    have := hr c hc
    simp only [up, setEnt, setLink] at this hc ⊢
    grind
  | @create i d k t name hp hi hfree ht htd hd hk hn =>
    have hk2 := h.two_le hd hk
    have hil := h.none i hfree
    intro c hc
    have := hr c
    simp only [up, Tree.newFile, setEnt, setLink, Tree.reset] at this hc ⊢
    grind
  | @mkdir i d k name hp hi hd0 hfree hd hk hn =>
    have hk2 := h.two_le hd hk
    have hil := h.none i hfree
    intro c hc
    have := hr c
    simp only [up, Tree.newDir, setEnt, setLink, Tree.reset] at this hc ⊢
    grind
  | @unlink d k name e hp hd hi he hname hdot hdotdot hempty =>
    have hk := h.named_two_le hd hname hdot hdotdot
    intro c hc
    by_cases hdir : v.type (v.ent d k).inum = T_DIR
    · have hcond := hgone d k hp hdir c
      have hlast := (h.unnameDir hd hk rfl hdir (hempty hdir) he).2.2
      have hup := (h.refs_empty hd hk rfl hdir (hempty hdir)).2.2
      have := hr c
      simp only [up, unname, if_pos hdir, setEnt, setLink] at *
      grind
    · have := hr c
      simp only [up, unname, if_neg hdir, setEnt, setLink] at this hc ⊢
      grind

end

end Tree

end Xv6.Fs
