import Xv6.Fs.DirMap
import Xv6.Fs.Links
import Xv6.Fs.Locks

/-!
# Path resolution is a fold

A path is cut at its slashes, empty parts are dropped and the others cut to `DIRSIZ` bytes
(`parts`); `namei` enters one directory after another (`Disk.enter`).  It returns as long as the
inode cache has two entries to spare: it takes the next inode before it gives back the last one.
-/

namespace Xv6.Fs

open List

variable {sb : Superblock} {dev : Devsw} {m : Mode} {P : ISlot → Nat} {T : List ISlot}
  {s s' : State} {t : ISlot} {D : Disk}

/-! ## The parts of a path -/

/-- The parts between the slashes that are not empty, as far as a name goes. -/
def parts (path : List UInt8) : List (List UInt8) :=
  ((path.splitOn slash).filter (· ≠ [])).map (·.take DIRSIZ)

theorem parts_nil : parts [] = [] := by
  simp [parts]

theorem parts_slash (l : List UInt8) : parts (slash :: l) = parts l := by
  unfold parts
  rw [splitOn_cons_eq_if_modifyHead, if_pos (by decide), filter_cons_of_neg (by simp)]

theorem parts_dropWhile (l : List UInt8) : parts (l.dropWhile (· = slash)) = parts l := by
  induction l with
  | nil => rfl
  | cons b l ih =>
    rw [dropWhile_cons]
    split
    next hb =>
      rw [ih, of_decide_eq_true hb, parts_slash]
    next => rfl

/-- A part that is not empty, and what follows it. -/
theorem parts_append {w r : List UInt8} (hw : w ≠ []) (hs : slash ∉ w)
    (hr : r = [] ∨ ∃ l, r = slash :: l) : parts (w ++ r) = w.take DIRSIZ :: parts r := by
  rcases hr with rfl | ⟨l, rfl⟩
  · unfold parts
    rw [append_nil, splitOn_eq_singleton hs, filter_cons_of_pos (by simpa using hw)]
    simp
  · rw [parts_slash]
    unfold parts
    rw [splitOn_append_cons_self_of_not_mem hs, filter_cons_of_pos (by simpa using hw),
      map_cons]

theorem dropWhile_slash (l : List UInt8) : l.dropWhile (· ≠ slash) = [] ∨
    ∃ r, l.dropWhile (· ≠ slash) = slash :: r := by
  induction l with
  | nil => exact .inl rfl
  | cons b l ih =>
    rw [dropWhile_cons]
    split
    · exact ih
    next hb =>
      refine .inr ⟨l, ?_⟩
      simp only [ne_eq, decide_not, Bool.not_eq_eq_eq_not, Bool.not_true, decide_eq_false_iff_not,
        not_not] at hb
      rw [hb]

/-- `skipelem` cuts the parts off one after another. -/
theorem elems_eq_parts : ∀ (fuel : Nat) (path : List UInt8), path.length ≤ fuel →
    elems fuel path = parts path := by
  intro fuel
  induction fuel with
  | zero =>
    intro path hlen
    rw [length_eq_zero_iff.1 (Nat.le_zero.1 hlen), parts_nil]
    rfl
  | succ fuel ih =>
    intro path hlen
    rw [← parts_dropWhile path]
    have hle : (path.dropWhile (· = slash)).length ≤ path.length := length_dropWhile_le ..
    unfold elems skipelem
    generalize hp : path.dropWhile (· = slash) = p at hle
    dsimp only
    by_cases h0 : p = []
    · rw [if_pos h0, h0, parts_nil]
    · rw [if_neg h0]
      -- what is left does not begin with a slash
      have hhead : p.takeWhile (· ≠ slash) ≠ [] := by
        obtain ⟨b, l, rfl⟩ := exists_cons_of_ne_nil h0
        have hb := head_dropWhile_not (p := fun x : UInt8 => decide (x = slash)) (l := path)
          (by rw [hp]; exact h0)
        simp only [hp, head_cons] at hb
        rw [takeWhile_cons_of_pos (by simpa using hb)]
        exact cons_ne_nil _ _
      have hsplit : p = p.takeWhile (· ≠ slash) ++ p.dropWhile (· ≠ slash) :=
        takeWhile_append_dropWhile.symm
      have hnot : slash ∉ p.takeWhile (· ≠ slash) := by
        intro hm
        have := mem_takeWhile_imp hm
        simp at this
      have hparts := parts_append hhead hnot (dropWhile_slash p)
      rw [← hsplit] at hparts
      dsimp only
      rw [hparts, ih, parts_dropWhile]
      have hlen' := congrArg List.length hsplit
      rw [length_append] at hlen'
      have hpos := length_pos_iff.2 hhead
      have hrest : ((p.dropWhile (· ≠ slash)).dropWhile (· = slash)).length ≤
          (p.dropWhile (· ≠ slash)).length := length_dropWhile_le ..
      omega

/-! ## The fold -/

/-- The inode that `name` stands for in `i`, if `i` is a directory. -/
def Disk.enter (D : Disk) (sb : Superblock) (i : Nat) (name : List UInt8) : Option Nat :=
  if (D.ino i).type = T_DIR then D.dirMap sb i (cname name) else none

theorem walk_eq_fold (l : List (List UInt8)) : ∀ (i : Nat) (last : List UInt8),
    (D.walk sb false i last l).map Prod.fst = l.foldlM (D.enter sb) i := by
  induction l with
  | nil =>
    intro i last
    rfl
  | cons name rest ih =>
    intro i last
    rw [foldlM_cons]
    unfold Disk.walk Disk.enter
    by_cases hd : (D.ino i).type = T_DIR
    · rw [if_neg (not_not.2 hd), if_neg (by simp), if_pos hd, dirMap_eq]
      cases D.lookup sb i name with
      | none => rfl
      | some j => exact ih _ name
    · rw [if_pos hd, if_neg hd]
      rfl

/-- The directory before the last part, with that part. -/
def Disk.enterParent (D : Disk) (sb : Superblock) (i : Nat) (l : List (List UInt8)) :
    Option (Nat × List UInt8) :=
  match l.getLast? with
  | none => none
  | some name => (l.dropLast.foldlM (D.enter sb) i).bind fun d =>
      if (D.ino d).type = T_DIR then some (d, name) else none

theorem enterParent_cons {i : Nat} {name : List UInt8} {l : List (List UInt8)} (hl : l ≠ []) :
    D.enterParent sb i (name :: l) =
      (D.enter sb i name).bind fun d => D.enterParent sb d l := by
  unfold Disk.enterParent
  rw [getLast?_cons_of_ne_nil hl, dropLast_cons_of_ne_nil hl, foldlM_cons]
  cases l.getLast? with
  | none =>
    cases D.enter sb i name with
    | none => rfl
    | some d => rfl
  | some x =>
    cases D.enter sb i name with
    | none => rfl
    | some d => rfl

theorem walk_eq_enterParent (l : List (List UInt8)) : ∀ (i : Nat) (last : List UInt8),
    D.walk sb true i last l = D.enterParent sb i l := by
  induction l with
  | nil =>
    intro i last
    rfl
  | cons name rest ih =>
    intro i last
    unfold Disk.walk
    by_cases hrest : rest = []
    · subst hrest
      show _ = if (D.ino i).type = T_DIR then some (i, name) else none
      by_cases hd : (D.ino i).type = T_DIR
      · rw [if_neg (not_not.2 hd), if_pos ⟨rfl, rfl⟩, if_pos hd]
      · rw [if_pos hd, if_neg hd]
    · rw [if_neg (c := true = true ∧ rest = []) (fun hc => hrest hc.2), enterParent_cons hrest,
        Disk.enter]
      by_cases hd : (D.ino i).type = T_DIR
      · rw [if_neg (not_not.2 hd), if_pos hd, dirMap_eq]
        cases D.lookup sb i name with
        | none => rfl
        | some j => exact ih _ name
      · rw [if_pos hd, if_neg hd]
        rfl

/-! ## Routines that return -/

theorem iget_returns (hv : ∃ u, (s.ic u).ref = 0) (i : Nat) :
    Run (fun _ => False) (fun _ _ => True) (iget i) s := by
  cases hc : s.cached i with
  | some t => exact Run.of_eq (iget_cached hc) trivial
  | none =>
    cases hvac : s.vacant with
    | some t => exact Run.of_eq (iget_vacant hc hvac) trivial
    | none =>
      obtain ⟨u, hu⟩ := hv
      exact absurd (decide_eq_true hu) (find?_eq_none.1 hvac u (mem_finRange u))

theorem ilock_returns (hr : 0 < (s.ic t).ref) (hb : (s.ic t).busy = false)
    (ht : (s.disk.ino (s.ic t).inum).type ≠ 0) :
    Run (fun _ => False) (fun _ _ => True) (ilock t) s := by
  unfold ilock
  refine Run.get_bind (Run.ite (fun h0 => by omega) fun _ => Run.ite (fun h1 => ?_) fun _ => ?_)
  · rw [hb] at h1
    cases h1
  · refine Run.bind_eq (modI_eq ..) (Run.ite (fun _ => Run.pure trivial) fun _ => ?_)
    exact Run.bind_eq (modI_eq ..) (Run.ite (fun h0 => absurd h0 ht) fun _ => Run.pure trivial)

theorem iunlock_returns (hr : 0 < (s.ic t).ref) (hb : (s.ic t).busy = true) :
    Run (fun _ => False) (fun _ _ => True) (iunlock t) s := by
  unfold iunlock
  refine Run.get_bind (Run.ite (fun hc => ?_) fun _ => Run.of_eq (modI_eq ..) trivial)
  rcases hc with h0 | h1
  · rw [hb] at h0
    cases h0
  · omega

theorem iput_returns (hl : ¬ s.Last t) : Run (fun _ => False) (fun _ _ => True) (iput t) s := by
  unfold iput
  exact Run.get_bind (Run.ite (fun hc => absurd hc hl) fun _ => Run.of_eq (modI_eq ..) trivial)

theorem iunlockput_returns (hr : 0 < (s.ic t).ref) (hb : (s.ic t).busy = true)
    (hl : ¬ s.Last t) : Run (fun _ => False) (fun _ _ => True) (iunlockput t) s := by
  have hun : iunlock t s = .ok ((), s.setI t { s.ic t with busy := false }) := by
    show (if (s.ic t).busy = false ∨ (s.ic t).ref < 1 then throw .iunlock else modI t _ : M Unit) s = _
    rw [if_neg, modI_eq]
    rw [hb]
    rintro (h0 | h1)
    · cases h0
    · omega
  unfold iunlockput
  refine Run.bind_eq hun (iput_returns ?_)
  unfold State.Last
  rw [setI_self]
  exact hl

theorem dirlookup_returns (h : IsDir sb t s) (hv : ∃ u, (s.ic u).ref = 0) (name : List UInt8) :
    Run (fun _ => False) (fun _ _ => True) (dirlookup sb dev t name) s := by
  have heq := h.dirlookup_eq dev name
  cases hj : (s.over t).lookup sb (s.ic t).inum name with
  | none =>
    rw [hj] at heq
    exact Run.of_eq heq trivial
  | some j =>
    rw [hj] at heq
    obtain ⟨u, s', hg, -⟩ := (iget_returns hv ((s.over t).dirent sb (s.ic t).inum j).inum).exists_of
    exact Run.of_eq (heq.trans (seq_ok hg)) trivial

/-! ## The walk returns -/

/-- No entry is locked. -/
abbrev Unlocked (s : State) : Prop := Flags (fun _ => false) s

/-- Whatever entry the walk holds, there is one more. -/
def Spare (P : ISlot → Nat) (T : List ISlot) : Prop := ∀ ip, ∃ u, P u + (ip :: T).count u = 0

theorem Good.vacancy {ip : ISlot} (h : Good sb m P (ip :: T) s) (hv : Spare P T) :
    ∃ u, (s.ic u).ref = 0 := by
  obtain ⟨u, hu⟩ := hv ip
  exact ⟨u, by rw [h.ref, hu]⟩

section
variable (hs : m.sound) (hv : Spare P T)
include hs hv

theorem namexLoop_returns (parent : Bool) :
    ∀ (l : List (List UInt8)) (last : List UInt8) (ip : ISlot) (s : State),
      Good sb m P (ip :: T) s → Unlocked s →
      Run (fun _ => False) (fun _ s' => Unlocked s') (namexLoop sb dev parent ip last l) s := by
  have hl := m.imp hs
  intro l
  induction l with
  | nil =>
    intro last ip s h hu
    unfold namexLoop
    refine Run.ite (fun _ => ?_) fun _ => Run.pure hu
    refine Run.bind ((iput_returns (h.not_last hl)).and (iput_flags hu rfl)) ?_
    rintro _ s' ⟨-, hu'⟩
    exact Run.pure hu'
  | cons name rest ih =>
    intro last ip s h hu
    unfold namexLoop
    have hip := count_head_pos (P := P) ip T
    have hlive := (h.sound hs).cached ip (h.ref_pos hip)
    refine Run.bind (((ilock_returns (h.ref_pos hip) (hu.busy ip) hlive.2).and
      (ilock_spec (q := False) (z := True) h hip False.elim)).and (ilock_flags hu ip)) ?_
    rintro _ s₁ ⟨⟨-, h₁, -, -, hv₁⟩, -, hu₁⟩
    have hbusy : (s₁.ic ip).busy = true := by
      rw [hu₁.busy, Function.update_self]
    refine Run.get_bind (Run.ite (fun _ => ?_) fun hdir => Run.ite (fun _ => ?_) fun _ => ?_)
    -- not a directory
    · refine Run.bind ((iunlockput_returns (h₁.ref_pos hip) hbusy (h₁.not_last hl)).and
        (iunlockput_unlocks rfl hu₁)) ?_
      rintro _ s' ⟨-, hu'⟩
      exact Run.pure hu'
    -- the parent
    · refine Run.bind ((iunlock_returns (h₁.ref_pos hip) hbusy).and (iunlock_flags hu₁ ip)) ?_
      rintro _ s' ⟨-, hu'⟩
      rw [Function.update_idem, update_false rfl] at hu'
      exact Run.pure hu'
    · rw [not_not] at hdir
      rw [h₁.copy hip hv₁] at hdir
      refine Run.bind (((dirlookup_returns (h₁.isDir hip hv₁ hdir) (h₁.vacancy hv) name).and
        (dirlookup_spec (q := False) (z := True) h₁ hip hv₁ name)).and (dirlookup_flags hu₁ ip name)) ?_
      rintro r s₂ ⟨⟨-, -, -, hf₂, hr⟩, hu₂⟩
      have hbusy₂ : (s₂.ic ip).busy = true := by
        rw [hu₂.busy, Function.update_self]
      rcases hr with ⟨rfl, rfl, -⟩ | ⟨next, j, rfl, -, -, h₂, -⟩
      · refine Run.bind ((iunlockput_returns (h₁.ref_pos hip) hbusy (h₁.not_last hl)).and
          (iunlockput_unlocks rfl hu₁)) ?_
        rintro _ s' ⟨-, hu'⟩
        exact Run.pure hu'
      · have h₂' : Good sb m P (ip :: next :: T) s₂ := h₂.perm (List.Perm.swap ..)
        refine Run.bind (((iunlockput_returns (h₂'.ref_pos (count_head_pos ip _)) hbusy₂
          (h₂'.not_last hl)).and (iunlockput_spec (q := False) (z := True) h₂')).and
          (iunlockput_unlocks rfl hu₂)) ?_
        rintro _ s₃ ⟨⟨-, h₃, -, -⟩, hu₃⟩
        exact ih name next s₃ h₃ hu₃

theorem namex_returns (dev : Devsw) (p : Pid) (path : List UInt8) (parent : Bool) (h : Good sb m P T s)
    (hu : Unlocked s) (hcwd : ∃ c, (s.proc p).cwd = some c ∧ 0 < P c) :
    Run (fun _ => False) (fun r s' => Unlocked s' ∧
        Walked sb m P T parent (s.resolve sb p path parent) s r s')
      (namex sb dev p path parent) s := by
  obtain ⟨c, hc, hP⟩ := hcwd
  have hspec : Run (Fault False True) _ (namex sb dev p path parent) s :=
    namex_spec p path parent h False.elim fun c' hc' => by
      rw [hc] at hc'
      cases hc'
      exact hP
  refine Run.and ?_ (hspec.mono fun _ _ hw => hw.1)
  have hvac : ∃ u, (s.ic u).ref = 0 := by
    obtain ⟨u, hu⟩ := hv 0
    refine ⟨u, ?_⟩
    have := count_le_count_cons (a := u) (b := 0) (l := T)
    rw [h.ref]
    omega
  unfold namex
  refine Run.get_bind (Run.ite (fun _ => ?_) fun _ => ?_)
  · refine Run.bind (((iget_returns hvac _).and (iget_spec (q := False) (z := True) h sb.root fun hs =>
      (h.sound hs).root)).and (iget_flags hu _)) ?_
    rintro ip s₁ ⟨⟨-, h₁, -⟩, hu₁⟩
    exact namexLoop_returns hs hv parent _ _ ip s₁ h₁ hu₁
  · rw [hc]
    have hpos : 0 < P c + T.count c := by omega
    refine Run.bind_eq (m := idup c) rfl ?_
    have h₁ := (idup_spec (q := False) (z := True) h hpos).of_ok (a := c) rfl
    have hu₁ := (idup_flags hu c).of_ok (a := c) rfl
    exact namexLoop_returns hs hv parent _ _ c _ h₁.2.1 hu₁

end

/-! ## What a path leads to -/

/-- Where a path starts: at the root or at the current directory. -/
def State.start (s : State) (p : Pid) (path : List UInt8) : Option Nat :=
  if path.head? = some slash then some ROOTINO else (s.proc p).cwd.map fun c => (s.ic c).inum

/-- The bytes of a C string. -/
abbrev cstring (path : List UInt8) : List UInt8 := path.takeWhile (· ≠ 0)

theorem resolve_eq (s : State) (p : Pid) (path : List UInt8) (parent : Bool) :
    s.resolve sb p path parent = (s.start p (cstring path)).bind fun i =>
      s.disk.walk sb parent i [] (parts (cstring path)) := by
  unfold State.resolve State.start
  dsimp only
  rw [elems_eq_parts _ _ (Nat.le_refl _)]
  split
  · rfl
  · cases (s.proc p).cwd with
    | none => rfl
    | some c => rfl

/-- What resolving a path does to the state: `r` has one more reference. -/
structure Resolved (s s' : State) (r : Option ISlot) : Prop where
  disk : s'.disk = s.disk
  ft : s'.ft = s.ft
  proc : s'.proc = s.proc
  unlocked : ∀ t, (s'.ic t).busy = false
  ref : ∀ t, (s'.ic t).ref = (s.ic t).ref + if r = some t then 1 else 0

theorem Walked.resolved {parent : Bool} {w : Option (Nat × List UInt8)}
    {r : Option (ISlot × List UInt8)} (h : Walked sb m P T parent w s r s') (hg : Good sb m P T s)
    (hl : m.linked) (hu : Unlocked s') : Resolved s s' (r.map Prod.fst) := by
  refine ⟨h.disk hl, h.frame.ft, h.frame.proc, hu.busy, fun t => ?_⟩
  cases r with
  | none =>
    rw [(h.lost rfl).ref, hg.ref]
    rfl
  | some x =>
    obtain ⟨u, name⟩ := x
    rw [(h.found u name rfl).ref, hg.ref]
    show _ = _ + if some u = some t then 1 else 0
    by_cases ht : u = t
    · subst ht
      rw [count_cons_self, if_pos rfl, Nat.add_assoc]
    · rw [count_cons_of_ne (Ne.symm ht), if_neg fun hc => ht (Option.some.inj hc), Nat.add_zero]

/-- In every state in which the cache and the directories are sound, nothing is locked, and two
entries of the inode cache are not in use, and for every path: `namei` returns the inode that the
parts of the path lead to one after another, and 0 exactly if one of them is not a directory or does
not have the name; `nameiparent` returns the directory before the last part, with that part.  Nothing
is left locked, nothing on the disk changes, and only the inode that is returned has one more
reference. -/
theorem path_is_fold {u v : ISlot} (hg : Good sb m P T s) (hs : m.sound)
    (hfree : ∀ t, (s.ic t).busy = false) (huv : u ≠ v) (hu : (s.ic u).ref = 0)
    (hv : (s.ic v).ref = 0) {p : Pid} {c : ISlot} (hc : (s.proc p).cwd = some c) (hP : 0 < P c)
    (path : List UInt8) :
    (∃ r s', namei sb dev p path s = .ok (r, s') ∧ Resolved s s' r ∧
      r.map (fun t => (s'.ic t).inum) = (s.start p (cstring path)).bind fun i =>
        (parts (cstring path)).foldlM (s.disk.enter sb) i) ∧
    ∃ r s', nameiparent sb dev p path s = .ok (r, s') ∧ Resolved s s' (r.map Prod.fst) ∧
      r.map (fun x => ((s'.ic x.1).inum, x.2)) = (s.start p (cstring path)).bind fun i =>
        s.disk.enterParent sb i (parts (cstring path)) := by
  have hl := m.imp hs
  have hspare : Spare P T := by
    have h1 := hg.ref u
    have h2 := hg.ref v
    intro ip
    by_cases hi : ip = u
    · refine ⟨v, ?_⟩
      rw [count_cons_of_ne (by rw [hi]; exact huv.symm)]
      omega
    · refine ⟨u, ?_⟩
      rw [count_cons_of_ne (Ne.symm hi)]
      omega
  have hun : Unlocked s := ⟨hfree, fun _ _ => rfl⟩
  constructor
  · obtain ⟨r, s', hr, hu', hw⟩ := (namex_returns hs hspare dev p path false hg hun
      ⟨c, hc, hP⟩).exists_of
    refine ⟨r.map Prod.fst, s', ?_, hw.resolved hg hl hu', ?_⟩
    · unfold namei
      rw [seq_ok hr]
      rfl
    · have hpath := congrArg (Option.map Prod.fst) (hw.path hl)
      rw [resolve_eq, Option.map_bind] at hpath
      simp only [Option.map_map] at hpath ⊢
      refine hpath.trans ?_
      congr 1
      funext i
      exact walk_eq_fold _ i []
  · obtain ⟨r, s', hr, hu', hw⟩ := (namex_returns hs hspare dev p path true hg hun
      ⟨c, hc, hP⟩).exists_of
    refine ⟨r, s', hr, hw.resolved hg hl hu', ?_⟩
    rw [hw.path hl, resolve_eq]
    congr 1
    funext i
    exact walk_eq_enterParent _ i []

/-- `namei("/./")` right after the start. -/
theorem path_is_fold_root : ∃ r s', namei mkfsSb nullDev 0 [47, 46, 47] (boot rootImage) =
    .ok (r, s') ∧ Resolved (boot rootImage) s' r ∧
      r.map (fun t => (s'.ic t).inum) = some ROOTINO := by
  have hmk := rootImage_mkfs
  have hidle := idle_names small_mkfsSb (boot_good hmk.wellFormed) (boot_files rootImage) hmk.kept
    hmk.exact hmk.rooted
  have hP : 0 < (boot rootImage).holders 0 := by
    rw [boot_holders, if_pos rfl]
    decide
  obtain ⟨⟨r, s', hr, hres, hfold⟩, -⟩ := @path_is_fold _ nullDev _ _ _ _ 1 2
    hidle.good trivial (fun _ => rfl) (by decide) rfl rfl 0 0 rfl hP [47, 46, 47]
  refine ⟨r, s', hr, hres, hfold.trans ?_⟩
  have hparts : parts (cstring [47, 46, 47]) = [dot] := by
    rw [← elems_eq_parts 3 _ (by decide)]
    decide
  rw [hparts]
  decide +kernel

/-- Four processes in the root directory have 49 files open, and the cache is full. -/
def crowded : State where
  disk := fullImage
  ic t := ⟨t + 1, if t = 0 then 4 else 1, false, true, fullImage.ino (t + 1)⟩
  ft f := if h : f.val < 49 then ⟨.inode, 1, true, false, ⟨f.val + 1, by
      dsimp only [NINODE]
      omega⟩, 0⟩
    else ⟨.none, 0, false, false, 0, 0⟩
  proc p := if p.val < 4 then ⟨some 0, fun fd =>
      if h : 16 * p.val + fd.val < 49 then some ⟨16 * p.val + fd.val, by
        dsimp only [NFILE]
        omega⟩ else none⟩
    else ⟨none, fun _ => none⟩
  tx := false

theorem crowded_good : Good mkfsSb .names crowded.holders [] crowded := by
  have hholders : ∀ t, crowded.holders t = if t = 0 then 4 else 1 := by
    decide +kernel
  have hin : ∀ t : ISlot, 1 ≤ t.val + 1 ∧ t.val + 1 < 66 := by
    intro t
    have := t.isLt
    dsimp only [NINODE] at this
    omega
  have hlive : ∀ t, fullImage.Live mkfsSb (crowded.ic t).inum :=
    fun t => (fullImage_alloc (hin t).1 (hin t).2).1
  refine ⟨fullImage_wellFormed.ok, fun t => ?_, fun t u _ _ he => ?_, fun t _ => (hlive t).1,
    fun t _ _ => ⟨rfl, (hlive t).2⟩, fun t _ => (hlive t).2, fun _ i hi h0 => ?_, fun _ => ?_⟩
  · rw [hholders]
    rfl
  · exact Fin.ext (Nat.succ.inj he)
  · obtain ⟨h1, h2⟩ := fullImage_live hi
    exact absurd h0 (fullImage_alloc h1 h2).2
  · exact ⟨fullImage_noDangle, fullImage_wellFormed.root, fun t _ => hlive t⟩

/-- The path leads to inode 51, but there is no entry of the cache left for it. -/
theorem namei_cache_full : ∃ s, Good mkfsSb .names s.holders [] s ∧
    (∀ t, (s.ic t).busy = false) ∧ (s.proc 0).cwd = some 0 ∧
    s.disk.walk mkfsSb false ROOTINO [] [fullName 51] = some (51, fullName 51) ∧
    namei mkfsSb nullDev 0 (slash :: fullName 51) s = .error .igetNoInodes := by
  refine ⟨crowded, crowded_good, fun _ => rfl, rfl, by decide +kernel, ?_⟩
  have hrun : (match namei mkfsSb nullDev 0 (slash :: fullName 51) crowded with
      | .ok _ => none
      | .error e => some e) = some .igetNoInodes := by
    decide +kernel
  split at hrun
  · cases hrun
  next e he =>
    cases hrun
    exact he

end Xv6.Fs
