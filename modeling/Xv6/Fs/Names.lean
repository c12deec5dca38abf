import Xv6.Fs.Calls
import Xv6.Fs.View

/-!
# Calls that change names

`create`, `link`, `unlink` and the calls that set attributes.  Each walks along its
paths while the disk is as before (`Before`), and then makes its changes: what they
are to the naming tree is `After`.
-/

namespace Xv6.Fs

open List

variable {sb : Superblock} {dev : Devsw} {m : Mode} {q z : Prop} {P : ISlot → Nat}
  {T : List ISlot} {s₀ s s' : State} {t : ISlot} {into : Nat → Prop} {gone : Nat → Nat → Prop}
  {i : Nat} {type : BitVec 16}

/-! ## The two halves of a call -/

/-- The call has only looked so far. -/
structure Before (sb : Superblock) (m : Mode) (P : ISlot → Nat) (T : List ISlot)
    (s₀ s : State) : Prop where
  good : Good sb m P T s
  frame : Frame P [] s₀ s
  disk : m.linked → s.disk = s₀.disk

/-- What is left of a call is to give back the references `T`. -/
structure After (sb : Superblock) (m : Mode) (P : ISlot → Nat) (T : List ISlot)
    (into : Nat → Prop) (gone : Nat → Nat → Prop) (s₀ s : State) : Prop where
  good : Good sb .any P T s
  frame : Frame P [] s₀ s
  kept : m.linked → Kept sb s
  tree : m.linked → ∃ v, Tree.Op into gone (s₀.disk.tree sb) v ∧ Tree.Frees v (s.disk.tree sb)

/-- What the exact account of names needs at the start of a call. -/
structure Ready (sb : Superblock) (s : State) : Prop where
  kept : Kept sb s
  inum : sb.ninodes ≤ 65536
  nlink : ∀ i, ((s.disk.tree sb).nlink i).toNat + 1 < 65536
  zero : (s.disk.tree sb).type 0 = 0

theorem Frame.nil (h : Frame P T s s') : Frame P [] s s' := by
  have hc : ∀ t, 0 < P t + ([] : List ISlot).count t → 0 < P t + T.count t := by
    intro t ht
    rw [count_nil] at ht
    omega
  exact ⟨h.ft, h.proc, fun t ht => h.inum t (hc t ht), fun t ht => h.valid t (hc t ht),
    fun t ht => h.type t (hc t ht)⟩

/-- The cache still has what it had; the disk has no new inode without links. -/
theorem Kept.frame {m' : Mode} {T' : List ISlot} (hk : Kept sb s) (h : Good sb m P T s)
    (hf : Frame P T s s') (h' : Good sb m' P T' s') (hT : ∀ t, t ∈ T → t ∈ T')
    (hd : ∀ i, s'.disk.Live sb i → (s'.disk.ino i).nlink = 0 →
      s.disk.Live sb i ∧ (s.disk.ino i).nlink = 0) : Kept sb s' := by
  intro i hi h0
  obtain ⟨hi', h0'⟩ := hd i hi h0
  obtain ⟨t, ht, hr, hv⟩ := hk i hi' h0'
  rw [h.ref] at hr
  refine ⟨t, (hf.inum t hr).trans ht, ?_, hf.valid t hr hv⟩
  rw [h'.ref]
  by_cases hP : 0 < P t
  · omega
  · have := count_pos_iff.mpr (hT t (count_pos_iff.mp (by omega)))
    omega

theorem Before.start (h : Good sb m P [] s) (tx : Bool) :
    Before sb m P [] s { s with tx := tx } :=
  ⟨h.congr rfl rfl, ⟨rfl, rfl, fun _ _ => rfl, fun _ _ => id, fun _ _ _ => rfl⟩, fun _ => rfl⟩

theorem Before.step {T' U : List ISlot} (h : Before sb m P T s₀ s) (hg : Good sb m P T' s')
    (hf : Frame P U s s') (hd : m.linked → s'.disk = s.disk) : Before sb m P T' s₀ s' :=
  ⟨hg, h.frame.trans hf.nil, fun hl => (hd hl).trans (h.disk hl)⟩

theorem Before.kept (h : Before sb m P T s₀ s) (h₀ : Good sb m P [] s₀) (hk : Kept sb s₀)
    (hl : m.linked) : Kept sb s :=
  hk.frame h₀ h.frame h.good (fun _ => (nomatch ·)) fun i hi h0 => by
    rw [h.disk hl] at hi h0
    exact ⟨hi, h0⟩

/-- Nothing has changed. -/
theorem Before.after (h : Before sb m P T s₀ s) (h₀ : Good sb m P [] s₀)
    (hk : m.linked → Kept sb s₀) : After sb m P T into gone s₀ s where
  good := h.good.weaken
  frame := h.frame
  kept hl := h.kept h₀ (hk hl) hl
  tree hl := ⟨_, .same, by rw [h.disk hl]; exact .refl⟩

/-! ## References are given back -/

/-- What `iput` does to the tree. -/
theorem Put.frees (hp : Put sb t s s') (h : Good sb m P (t :: T) s) :
    Tree.Frees (s.disk.tree sb) (s'.disk.tree sb) := by
  by_cases hl : s.Last t
  · obtain ⟨hr, hv, h0⟩ := hl
    have hpos : 0 < (s.ic t).ref := by omega
    obtain ⟨hc, ht⟩ := h.clean t hpos hv
    refine .free (i := (s.ic t).inum) ?_ ?_
    · rw [Disk.tree_nlink ⟨h.range t hpos, ht⟩, ← hc, h0]
    · rw [Disk.tree_freed (hp.freed ⟨hr, hv, h0⟩)]
      exact .refl
  · rw [hp.kept hl]
    exact .refl

theorem After.put (h : After sb m P (t :: T) into gone s₀ s) (hg : Good sb .any P T s')
    (hf : Frame P T s s') (hp : Put sb t s s') : After sb m P T into gone s₀ s' where
  good := hg
  frame := h.frame.trans hf.nil
  kept hl := (h.kept hl).put h.good hp
  tree hl := by
    obtain ⟨v, hv, hf⟩ := h.tree hl
    exact ⟨v, hv, hf.trans (hp.frees h.good)⟩

theorem After.iput (h : After sb m P (t :: T) into gone s₀ s) :
    Run (Fault q z) (fun _ s' => After sb m P T into gone s₀ s') (iput t) s :=
  (iput_spec h.good).mono fun _ _ ⟨hg, hf, hp⟩ => h.put hg hf hp

theorem After.iunlockput (h : After sb m P (t :: T) into gone s₀ s) :
    Run (Fault q z) (fun _ s' => After sb m P T into gone s₀ s') (iunlockput t) s :=
  (iunlockput_spec h.good).mono fun _ _ ⟨hg, hf, hp⟩ => h.put hg hf hp

theorem After.tx (h : After sb m P T into gone s₀ s) (tx : Bool) :
    After sb m P T into gone s₀ { s with tx := tx } where
  good := h.good.congr rfl rfl
  frame := h.frame.trans ⟨rfl, rfl, fun _ _ => rfl, fun _ _ => id, fun _ _ _ => rfl⟩
  kept := h.kept
  tree := h.tree

variable {α : Type}

/-- The call ends with `end_op`. -/
theorem After.ret {r : α} (h : After sb m P T into gone s₀ s) :
    Run (Fault q z) (fun _ s' => After sb m P T into gone s₀ s') (do endOp; pure r) s :=
  Run.modify_bind (Run.pure (h.tx false))

theorem After.putRet {r : α} (h : After sb m P (t :: T) into gone s₀ s) :
    Run (Fault q z) (fun _ s' => After sb m P T into gone s₀ s')
      (do Fs.iunlockput t; endOp; pure r) s :=
  Run.bind h.iunlockput fun _ _ h => h.ret

/-! ## The first half -/

theorem State.resolve_congr {p : Pid} (hproc : s'.proc = s.proc)
    (hcwd : ∀ c, (s.proc p).cwd = some c → (s'.ic c).inum = (s.ic c).inum)
    (hwalk : ∀ parent l i last, s'.disk.walk sb parent i last l = s.disk.walk sb parent i last l)
    (path : List UInt8) (parent : Bool) :
    s'.resolve sb p path parent = s.resolve sb p path parent := by
  unfold State.resolve
  rw [hproc]
  simp only [hwalk]
  split
  · rfl
  · cases hc : (s.proc p).cwd with
    | none => rfl
    | some c => simp only [Option.bind_some, hcwd c hc]

section
variable (h : Before sb m P T s₀ s) (hq : q → m.sound)
include h hq

theorem Before.ilock (ht : 0 < P t + T.count t) :
    Run (Fault q z) (fun _ s' => Before sb m P T s₀ s' ∧ Frame P T s s' ∧ s'.disk = s.disk ∧
      (s'.ic t).valid = true) (ilock t) s := by
  refine (ilock_spec h.good ht fun hc => ?_).mono ?_
  · exact (h.good.sound (hq hc)).cached t (h.good.ref_pos ht)
  · rintro _ s' ⟨hg, hf, hd, hv⟩
    exact ⟨h.step hg hf fun _ => hd, hf, hd, hv⟩

omit hq in
theorem Before.resolve {p : Pid} (hcwd : ∀ c, (s₀.proc p).cwd = some c → 0 < P c)
    (hl : m.linked) (path : List UInt8) (parent : Bool) :
    s.resolve sb p path parent = s₀.resolve sb p path parent :=
  State.resolve_congr h.frame.proc
    (fun c hc => h.frame.inum c (Nat.add_pos_left (hcwd c hc) _))
    (fun _ _ _ _ => by rw [h.disk hl]) path parent

theorem Before.namex (p : Pid) (path : List UInt8) (parent : Bool)
    (hcwd : ∀ c, (s₀.proc p).cwd = some c → 0 < P c) :
    Run (Fault q z) (fun r s' => Within sb s.disk s'.disk ∧ (r = none → Before sb m P T s₀ s') ∧
        ∀ u name, r = some (u, name) → Before sb m P (u :: T) s₀ s' ∧ Frame P T s s' ∧
          (m.linked → s₀.resolve sb p path parent = some ((s'.ic u).inum, name)) ∧
          (parent = true → (s'.ic u).valid = true ∧
            (s'.disk.ino (s'.ic u).inum).type = T_DIR))
      (namex sb dev p path parent) s := by
  refine (namex_spec p path parent h.good hq (h.frame.proc ▸ hcwd)).mono ?_
  rintro r s' ⟨hw, hin⟩
  refine ⟨hin, fun hr => h.step (hw.lost hr) hw.frame hw.disk, fun u name hr => ?_⟩
  refine ⟨h.step (hw.found u name hr) hw.frame hw.disk, hw.frame, fun hl => ?_, hw.dir u name hr⟩
  have := hw.path hl
  rw [hr, h.resolve hcwd hl] at this
  exact this.symm

theorem Before.namei (p : Pid) (path : List UInt8)
    (hcwd : ∀ c, (s₀.proc p).cwd = some c → 0 < P c) :
    Run (Fault q z) (fun r s' => Within sb s.disk s'.disk ∧ (r = none → Before sb m P T s₀ s') ∧
        ∀ u, r = some u → Before sb m P (u :: T) s₀ s') (namei sb dev p path) s := by
  unfold Fs.namei
  refine Run.bind (h.namex hq p path false hcwd) ?_
  rintro r s' ⟨hin, hn, hs⟩
  refine Run.pure ⟨hin, fun hr => hn (Option.map_eq_none_iff.mp hr), fun u hu => ?_⟩
  obtain ⟨⟨v, name⟩, hr, rfl⟩ := Option.map_eq_some_iff.mp hu
  exact (hs v name hr).1

end

/-! ## Stores -/

theorem Tree.setLink_self (v : Tree) (i : Nat) : v.setLink i (v.nlink i) = v := by
  refine Tree.ext rfl (funext fun j => ?_) rfl
  change (if j = i then _ else _) = _
  split
  next hj => rw [hj]
  · rfl

/-- The inode that changes is itself in the cache. -/
theorem Kept.store {D : Disk} (hk : Kept sb s) (hr : 0 < (s.ic t).ref)
    (hv : (s.ic t).valid = true) (hother : ∀ j, j ≠ (s.ic t).inum → D.ino j = s.disk.ino j) :
    Kept sb (s.store t D) := by
  intro i hi h0
  change D.Live sb i at hi
  change (D.ino i).nlink = 0 at h0
  by_cases hit : i = (s.ic t).inum
  · subst hit
    refine ⟨t, ?_⟩
    simp only [State.store, State.put, Function.update_self]
    exact ⟨trivial, hr, hv⟩
  · rw [hother i hit] at h0
    obtain ⟨u, hu, hru, hvu⟩ := hk i ((Disk.live_congr (by rw [hother i hit])).mp hi) h0
    have hut : u ≠ t := by
      rintro rfl
      exact hit hu.symm
    refine ⟨u, ?_⟩
    simp only [State.store, State.put, Function.update_of_ne hut]
    exact ⟨hu, hru, hvu⟩

/-- The fields of an inode other than its type, size and blocks are stored and written back. -/
theorem Run.setMeta {A : α → State → Prop} {f : Dinode → Dinode} {k : Unit → M α}
    (h : Good sb m P T s) (ht : 0 < P t + T.count t) (hv : (s.ic t).valid = true)
    (hf : ∀ d, (f d).type = d.type ∧ (f d).addrs = d.addrs ∧ (f d).size = d.size)
    (hlk : m.linked → (f (s.disk.ino (s.ic t).inum)).nlink = 0 →
      (s.disk.ino (s.ic t).inum).nlink = 0 ∨ 0 < P t)
    (hk : ∀ s', Good sb m P T s' → Frame P T s s' → (Kept sb s → Kept sb s') →
      s'.disk = s.disk.setIno (s.ic t).inum (f (s.disk.ino (s.ic t).inum)) →
      s'.disk.tree sb = (s.disk.tree sb).setLink (s.ic t).inum
        (f (s.disk.ino (s.ic t).inum)).nlink → Run (Fault q z) A (k ()) s') :
    Run (Fault q z) A (modC t f >>= fun _ => iupdate t >>= k) s := by
  obtain ⟨h1, h2, h3⟩ := hf (s.disk.ino (s.ic t).inum)
  have hst : { s.setI t { s.ic t with copy := f (s.ic t).copy } with
      disk := s.disk.setIno (s.ic t).inum (f (s.ic t).copy) } =
      s.store t (s.disk.setIno (s.ic t).inum (f (s.disk.ino (s.ic t).inum))) := by
    rw [h.copy ht hv]
    simp [State.setI, State.store, State.put, Disk.setIno]
  obtain ⟨hg, hfr⟩ := h.store ht hv (h.disk.setMeta h1 h2 h3)
    (fun j hj => Disk.setIno_of_ne _ _ hj) (by rw [Disk.setIno_self, h1])
    (by rw [Disk.setIno_self]; exact hlk) fun hs => (h.sound hs).entry.setMeta h1 h2 h3
  unfold modC iupdate
  refine Run.bind_eq (modI_eq ..) (Run.bind (P := fun _ s' => s' = s.store t
    (s.disk.setIno (s.ic t).inum (f (s.disk.ino (s.ic t).inum)))) ?_ ?_)
  · refine Run.get_bind (Run.modify_bind ?_)
    rw [setI_self, show (s.setI t { s.ic t with copy := f (s.ic t).copy }).disk = s.disk from rfl,
      hst]
    unfold logWrite
    exact Run.get_bind (Run.ite (fun _ => Run.pure rfl) fun _ => Run.throw (Fault.of (by decide)))
  · rintro _ _ rfl
    exact hk _ hg hfr (fun hk => hk.store (h.ref_pos ht) hv fun j hj => Disk.setIno_of_ne _ _ hj)
      rfl (Disk.tree_setMeta (h.live ht hv) h1 h2 h3)

/-! ## `chmod`, `chown`, `chgrp` and `exec` -/

/-- `readi` leaves a well-formed file alone. -/
theorem readi_same (dev : Devsw) (hg : Good sb m P T s) (ht : 0 < P t + T.count t)
    (hv : (s.ic t).valid = true) (off n : Nat) : ∃ r, readi sb dev t off n s = .ok (r, s) := by
  by_cases hd : (s.ic t).copy.type = T_DEV
  · unfold readi
    change ∃ r, (if (s.ic t).copy.type = T_DEV then
      (if (s.ic t).copy.major.toInt < 0 ∨ NDEV ≤ (s.ic t).copy.major.toInt then pure none
        else pure (dev.read (s.ic t).copy.major n)) else _ : M _) s = .ok (r, s)
    rw [if_pos hd]
    split
    · exact ⟨_, rfl⟩
    · exact ⟨_, rfl⟩
  · exact ⟨_, readi_good hg ht hv hd⟩

section
variable (h : Good sb m P [] s) (hk : m.linked → Kept sb s) (hq : q → m.sound) (p : Pid)
  (path : List UInt8) (hcwd : ∀ c, (s.proc p).cwd = some c → 0 < P c)
include h hk hq hcwd

theorem chattr_spec (bound : Int) {set : Int → Dinode → Dinode} (v : Int)
    (hset : ∀ d, (set v d).type = d.type ∧ (set v d).addrs = d.addrs ∧ (set v d).size = d.size)
    (hlink : ∀ d, (set v d).nlink = d.nlink) :
    Run (Fault q z) (fun _ s' => After sb m P [] into gone s s')
      (chattr sb dev bound set p path v) s := by
  have hret : ∀ {α : Type} {r : α} {s' : State}, Before sb m P [] s s' →
      Run (Fault q z) (fun _ s' => After sb m P [] into gone s s') (do endOp; pure r) s' :=
    fun hb => (hb.after h hk).ret
  unfold chattr
  refine Run.ite (fun _ => Run.pure ((Before.start h s.tx).after h hk)) fun _ => ?_
  refine Run.modify_bind (Run.ite (fun _ => hret (Before.start h true)) fun _ => ?_)
  refine Run.bind ((Before.start h true).namei hq p path hcwd) ?_
  rintro r s₁ ⟨-, hn, hs⟩
  cases r with
  | none => exact hret (hn rfl)
  | some ip =>
    have hb := hs ip rfl
    have hip := count_head_pos (P := P) ip []
    refine Run.bind (hb.ilock hq hip) ?_
    rintro _ s₂ ⟨hb₂, -, -, hv⟩
    refine Run.setMeta hb₂.good hip hv hset (fun _ h0 => .inl (hlink _ ▸ h0)) ?_
    intro s₃ hg hf hkept _ htree
    refine After.putRet ⟨hg.weaken, hb₂.frame.trans hf.nil,
      fun hl => hkept (hb₂.kept h (hk hl) hl), fun hl => ⟨_, .same, ?_⟩⟩
    rw [htree, hlink, ← Disk.tree_nlink (hb₂.good.live hip hv), Tree.setLink_self, hb₂.disk hl]
    exact .refl

theorem chmod_spec (mode : Int) :
    Run (Fault q z) (fun _ s' => After sb m P [] into gone s s') (chmod sb dev p path mode) s := by
  unfold chmod
  exact chattr_spec h hk hq p path hcwd _ _ (fun _ => ⟨rfl, rfl, rfl⟩) fun _ => rfl

theorem chown_spec (owner : Int) :
    Run (Fault q z) (fun _ s' => After sb m P [] into gone s s') (chown sb dev p path owner) s := by
  unfold chown
  exact chattr_spec h hk hq p path hcwd _ _ (fun _ => ⟨rfl, rfl, rfl⟩) fun _ => rfl

theorem chgrp_spec (group : Int) :
    Run (Fault q z) (fun _ s' => After sb m P [] into gone s s') (chgrp sb dev p path group) s := by
  unfold chgrp
  exact chattr_spec h hk hq p path hcwd _ _ (fun _ => ⟨rfl, rfl, rfl⟩) fun _ => rfl

theorem execFile_spec (reads : List (Nat × Nat)) :
    Run (Fault q z) (fun _ s' => After sb m P [] into gone s s')
      (execFile sb dev p path reads) s := by
  unfold execFile
  refine Run.modify_bind (Run.bind ((Before.start h true).namei hq p path hcwd) ?_)
  rintro r s₁ ⟨-, hn, hs⟩
  cases r with
  | none => exact ((hn rfl).after h hk).ret
  | some ip =>
    have hip := count_head_pos (P := P) ip []
    refine Run.bind ((hs ip rfl).ilock hq hip) ?_
    rintro _ s₂ ⟨hb₂, -, -, hv⟩
    refine Run.bind (P := fun _ s' => s' = s₂) ?_ ?_
    · refine Run.forM (fun _ s' => s' = s₂) ?_ reads rfl
      rintro r l _ rfl
      obtain ⟨x, hx⟩ := readi_same dev hb₂.good hip hv r.1 r.2
      exact Run.bind_eq hx (Run.pure rfl)
    · rintro _ _ rfl
      exact (hb₂.after h hk).putRet

end

/-! ## `unlink` -/

theorem Tree.reset_setLink {v : Tree} {d : Nat} (h : i ≠ d) (n : BitVec 16) :
    (v.reset d 0).setLink i n = (v.setLink i n).reset d 0 := by
  refine Tree.ext rfl (funext fun j => ?_) rfl
  simp only [Tree.setLink, Tree.reset]
  grind

section
variable {dp ip : ISlot}

/-- The entry is gone; the link count of the file comes next, once `dp` is given back. -/
theorem unlinkRest_spec {v w : Tree} (hg : Good sb .any P [dp, ip] s) (hf : Frame P [] s₀ s)
    (hk : m.linked → Kept sb s) (hv : (s.ic ip).valid = true)
    (hop : m.linked → Tree.Op into gone (s₀.disk.tree sb) v)
    (hw : m.linked → w = s.disk.tree sb ∧
      v = w.setLink (s.ic ip).inum (w.nlink (s.ic ip).inum - 1)) :
    Run (Fault q z) (fun _ s' => After sb m P [] into gone s₀ s')
      (do iunlockput dp
          modC ip fun d => { d with nlink := d.nlink - 1 }
          iupdate ip
          iunlockput ip
          endOp
          pure (some 0)) s := by
  have hip := count_head_pos (P := P) ip []
  refine Run.bind (iunlockput_spec hg) ?_
  rintro _ s₁ ⟨hg₁, hf₁, hp⟩
  have hi : (s₁.ic ip).inum = (s.ic ip).inum := hf₁.inum ip hip
  have hv₁ := hf₁.valid ip hip hv
  refine Run.setMeta hg₁ hip hv₁ (fun _ => ⟨rfl, rfl, rfl⟩) False.elim ?_
  intro s₂ hg₂ hf₂ hkept _ htree
  refine After.putRet ⟨hg₂.weaken, hf.trans (hf₁.nil.trans hf₂.nil),
    fun hl => hkept ((hk hl).put hg hp), fun hl => ⟨v, hop hl, ?_⟩⟩
  · obtain ⟨hw, hvw⟩ := hw hl
    rw [htree]
    change Tree.Frees v (Tree.setLink _ _ ((s₁.disk.ino _).nlink - 1))
    rw [← Disk.tree_nlink (hg₁.live hip hv₁), hi, hvw]
    by_cases hlast : s.Last dp
    · obtain ⟨hr, hvd, h0⟩ := hlast
      have hpos : 0 < (s.ic dp).ref := by omega
      obtain ⟨hc, htd⟩ := hg.clean dp hpos hvd
      -- a second reference through the same entry would not be the last
      have hne : (s.ic ip).inum ≠ (s.ic dp).inum := by
        intro hc
        have := hg.uniq ip dp (hg.ref_pos (count_tail_pos dp hip)) hpos hc
        subst this
        have := hg.ref ip
        rw [hr] at this
        simp at this
      have hfree := Disk.tree_freed (hp.freed ⟨hr, hvd, h0⟩)
      rw [hfree, ← hw, Tree.reset_setLink hne,
        show (w.reset (s.ic dp).inum 0).nlink (s.ic ip).inum = w.nlink (s.ic ip).inum from
          if_neg hne]
      refine .free ?_ .refl
      refine (if_neg hne.symm).trans ?_
      rw [hw, Disk.tree_nlink ⟨hg.range dp hpos, htd⟩, ← hc, h0]
    · rw [hp.kept hlast, ← hw]
      exact .refl

theorem unlinkEntry_spec {j : Nat} (name : List UInt8) (h : Good sb m P [] s₀)
    (hr : m.linked → Ready sb s₀) (hb : Before sb m P [ip, dp] s₀ s)
    (hvi : (s.ic ip).valid = true) (hvd : (s.ic dp).valid = true)
    (hdir : (s.disk.ino (s.ic dp).inum).type = T_DIR)
    (hj : s.disk.lookup sb (s.ic dp).inum name = some j)
    (hi : (s.ic ip).inum = (s.disk.dirent sb (s.ic dp).inum j).inum)
    (hdot : cname name ≠ dot) (hdotdot : cname name ≠ dotdot)
    (hempty : (s.disk.ino (s.ic ip).inum).type = T_DIR →
      ∀ k, 2 ≤ k → ((s.disk.tree sb).ent (s.ic ip).inum k).inum = 0)
    (hgone : m.linked → gone (s.ic dp).inum j) :
    Run (Fault q z) (fun _ s' => After sb m P [] into gone s₀ s')
      (unlinkEntry sb dev dp ip (DESIZE * j)) s := by
  have hip := count_head_pos (P := P) ip [dp]
  have hdp := count_tail_pos ip (count_head_pos (P := P) dp [])
  have hg := hb.good.weaken
  have hld := hg.live hdp hvd
  unfold unlinkEntry
  refine Run.bind (writei_good hg hdp hvd fun _ => ?_) ?_
  · refine ⟨Nat.mul_mod_right .., length_replicate, ?_, False.elim⟩
    rw [decode_zero_inum]
    exact Nat.lt_of_le_of_lt (Nat.zero_le _) sb.root
  rintro r s₁ ⟨hg₁, hf₁, hw⟩
  refine Run.ite (fun _ => Run.throw (Fault.of (by decide))) fun hr' => ?_
  rcases hw with ⟨rfl, ⟨hr'', -⟩ | hr''⟩ | ⟨-, -, hw, hst⟩
  · rw [hr''] at hr'
    exact absurd (nofun) hr'
  · rw [hg.copy hdp hvd, hdir] at hr''
    cases hr''
  obtain ⟨hent, hne, hname⟩ := Disk.lookup_some hld hdir hj
  have htree : s₁.disk.tree sb = (s.disk.tree sb).setEnt (s.ic dp).inum j
      (.decode (List.replicate DESIZE 0)) :=
    Disk.tree_wrote_dir hw hld hdir length_replicate (search_some hj).1.le
  have hinum : ((s.disk.tree sb).ent (s.ic dp).inum j).inum = (s.ic ip).inum := by rw [hent, hi]
  have hdisk : m.linked → s.disk.tree sb = s₀.disk.tree sb := fun hl => by rw [hb.disk hl]
  have hli := hg.live hip hvi
  have hop : m.linked → Tree.Op into gone (s₀.disk.tree sb)
      ((s.disk.tree sb).unname (s.ic dp).inum j (.decode (List.replicate DESIZE 0))) := by
    intro hl
    rw [← hdisk hl]
    refine .unlink (hgone hl) (Disk.tree_dir.mpr ⟨hld, hdir⟩) (by rwa [hent]) decode_zero_inum
      (by rwa [hent]) hdot hdotdot ?_
    rw [hinum]
    exact fun hd => hempty (Disk.tree_dir.mp hd).2
  have hkept : m.linked → Kept sb s₁ := by
    intro hl
    rw [hst]
    exact (hb.kept h (hr hl).kept hl).store (hg.ref_pos hdp) hvd hw.other
  have hvi₁ := hf₁.valid ip hip hvi
  have htype : (s₁.ic ip).copy.type = (s.disk.tree sb).type (s.ic ip).inum := by
    rw [hg₁.copy hip hvi₁, hw.type_eq, hf₁.inum ip hip, Disk.tree_type hli]
  have hunname : ∀ w : Tree, w = (if (s.disk.tree sb).type (s.ic ip).inum = T_DIR then
        (s.disk.tree sb).setLink (s.ic dp).inum ((s.disk.tree sb).nlink (s.ic dp).inum - 1)
        else s.disk.tree sb).setEnt (s.ic dp).inum j (.decode (List.replicate DESIZE 0)) →
      (s.disk.tree sb).unname (s.ic dp).inum j (.decode (List.replicate DESIZE 0)) =
        w.setLink (s.ic ip).inum (w.nlink (s.ic ip).inum - 1) := by
    rintro w rfl
    simp only [Tree.unname, hinum]
  refine Run.get_bind (Run.ite (fun hd => ?_) fun hd => ?_)
  · rw [htype] at hd
    refine Run.setMeta hg₁ hdp (hf₁.valid dp hdp hvd) (fun _ => ⟨rfl, rfl, rfl⟩) False.elim ?_
    intro s₂ hg₂ hf₂ hkept₂ _ htree₂
    refine unlinkRest_spec (hg₂.perm (List.Perm.swap ..)) (hb.frame.trans (hf₁.nil.trans hf₂.nil))
      (fun hl => hkept₂ (hkept hl)) (hf₂.valid ip hip hvi₁) hop fun _ => ⟨rfl, ?_⟩
    rw [hf₂.inum ip hip, hf₁.inum ip hip]
    refine hunname _ ?_
    rw [if_pos hd, htree₂, htree, hf₁.inum dp hdp]
    have hn : (s₁.disk.ino (s.ic dp).inum).nlink = (s.disk.tree sb).nlink (s.ic dp).inum := by
      rw [hw.nlink_eq, Disk.tree_nlink hld]
    rw [← hn]
    rfl
  · rw [htype] at hd
    refine unlinkRest_spec (hg₁.perm (List.Perm.swap ..)) (hb.frame.trans hf₁.nil) hkept hvi₁ hop
      fun _ => ⟨rfl, ?_⟩
    rw [hf₁.inum ip hip]
    refine hunname _ ?_
    rw [if_neg hd, htree]

theorem unlinkBad_spec (h : Good sb m P [] s₀) (hk : m.linked → Kept sb s₀)
    (hb : Before sb m P [dp] s₀ s) :
    Run (Fault q z) (fun _ s' => After sb m P [] into gone s₀ s') (unlinkBad dp) s :=
  (hb.after h hk).putRet

/-- The entries that `unlink(path)` removes. -/
def Goes (sb : Superblock) (s : State) (p : Pid) (path : List UInt8) (d k : Nat) : Prop :=
  ∃ name, s.resolve sb p path true = some (d, name) ∧ s.disk.lookup sb d name = some k

theorem sysUnlink_spec (h : Good sb m P [] s) (hr : m.linked → Ready sb s) (hq : q → m.sound)
    (p : Pid) (path : List UInt8) (hcwd : ∀ c, (s.proc p).cwd = some c → 0 < P c) :
    Run (Fault q z) (fun _ s' => After sb m P [] into (Goes sb s p path) s s')
      (sysUnlink sb dev p path) s := by
  have hk := fun hl => (hr hl).kept
  unfold sysUnlink nameiparent
  refine Run.modify_bind (Run.bind ((Before.start h true).namex hq p path true hcwd) ?_)
  rintro r s₁ ⟨-, hn, hs⟩
  cases r with
  | none => exact ((hn rfl).after h hk).ret
  | some x =>
    obtain ⟨dp, name⟩ := x
    obtain ⟨hb, -, hpath, hdp'⟩ := hs dp name rfl
    obtain ⟨hvd, hdir⟩ := hdp' rfl
    have hdp := count_head_pos (P := P) dp []
    refine Run.bind (hb.ilock hq hdp) ?_
    rintro _ s₂ ⟨hb₂, hf₂, hd₂, hvd₂⟩
    have hid : (s₂.ic dp).inum = (s₁.ic dp).inum := hf₂.inum dp hdp
    rw [← hd₂, ← hid] at hdir
    refine Run.ite (fun _ => unlinkBad_spec h hk hb₂) fun hdots => ?_
    refine Run.bind (dirlookup_spec hb₂.good hdp hvd₂ name) ?_
    rintro r s₃ ⟨-, hd₃, hf₃, hr₃⟩
    rcases hr₃ with ⟨rfl, rfl, -⟩ | ⟨ip, j, rfl, hj, hi, hg₃, -⟩
    · exact unlinkBad_spec h hk hb₂
    have hb₃ : Before sb m P [ip, dp] s s₃ := hb₂.step hg₃ hf₃ fun _ => hd₃
    have hip := count_head_pos (P := P) ip [dp]
    have hdp₃ := count_tail_pos ip hdp
    refine Run.bind (hb₃.ilock hq hip) ?_
    rintro _ s₄ ⟨hb₄, hf₄, hd₄, hvi⟩
    have hid₄ : (s₄.ic dp).inum = (s₂.ic dp).inum := (hf₄.inum dp hdp₃).trans (hf₃.inum dp hdp)
    have hvd₄ := hf₄.valid dp hdp₃ (hf₃.valid dp hdp hvd₂)
    have hdisk : s₄.disk = s₂.disk := hd₄.trans hd₃
    have hcopy := hb₄.good.copy hip hvi
    have hgone : m.linked → Goes sb s p path (s₄.ic dp).inum j := by
      intro hl
      refine ⟨name, ?_, ?_⟩
      · rw [hpath hl, hid₄, hid]
      · rw [← hb₂.disk hl, hid₄]
        exact hj
    have hentry : ((s₄.disk.ino (s₄.ic ip).inum).type = T_DIR → ∀ k, 2 ≤ k →
        ((s₄.disk.tree sb).ent (s₄.ic ip).inum k).inum = 0) →
        Run (Fault q z) (fun _ s' => After sb m P [] into (Goes sb s p path) s s')
          (unlinkEntry sb dev dp ip (DESIZE * j)) s₄ := by
      intro hempty
      simp only [namecmp, decide_eq_true_eq, not_or] at hdots
      refine unlinkEntry_spec name h hr hb₄ hvi hvd₄ ?_ ?_ ?_ ?_ ?_ hempty hgone
      · rw [hdisk, hid₄]
        exact hdir
      · rw [hdisk, hid₄]
        exact hj
      · rw [hdisk, hid₄, hf₄.inum ip hip]
        exact hi
      · exact hdots.1
      · exact hdots.2
    refine Run.get_bind (Run.ite (fun _ => Run.throw (Fault.of (by decide))) fun _ => ?_)
    refine Run.ite (fun hd => ?_) fun hd => hentry fun hc => absurd (hcopy ▸ hc) hd
    rw [hcopy] at hd
    refine Run.bind_eq (isdirempty_eq hb₄.good hip hvi hd) (Run.ite (fun _ => ?_) fun he => ?_)
    · exact Run.bind (hb₄.after h hk).iunlockput fun _ _ ha => ha.putRet
    · refine hentry fun _ => Disk.search_empty ?_
      simpa using he

end

/-! ## `link` -/

theorem Tree.setLink_setLink (v : Tree) (i : Nat) (n n' : BitVec 16) :
    (v.setLink i n).setLink i n' = v.setLink i n' := by
  refine Tree.ext rfl (funext fun j => ?_) rfl
  simp only [Tree.setLink]
  grind

section
variable {dp ip : ISlot}

theorem linkBad_spec (hg : Good sb .any P [ip] s) (hf : Frame P [] s₀ s)
    (hk : m.linked → Kept sb s) (hv : (s.ic ip).valid = true)
    (htree : m.linked → s.disk.tree sb = (s₀.disk.tree sb).setLink (s.ic ip).inum
      ((s₀.disk.tree sb).nlink (s.ic ip).inum + 1)) :
    Run (Fault q z) (fun _ s' => After sb m P [] into gone s₀ s') (linkBad ip) s := by
  have hip := count_head_pos (P := P) ip []
  unfold linkBad
  refine Run.bind (ilock_spec hg hip fun _ => hg.live hip hv) ?_
  rintro _ s₁ ⟨hg₁, hf₁, hd₁, hv₁⟩
  refine Run.setMeta hg₁ hip hv₁ (fun _ => ⟨rfl, rfl, rfl⟩) False.elim ?_
  intro s₂ hg₂ hf₂ hkept _ htree₂
  refine After.putRet ⟨hg₂, hf.trans (hf₁.nil.trans hf₂.nil), fun hl => ?_,
    fun hl => ⟨_, .same, ?_⟩⟩
  · refine hkept ((hk hl).frame hg hf₁ hg₁ (fun _ => id) fun i hi h0 => ?_)
    rw [hd₁] at hi h0
    exact ⟨hi, h0⟩
  · rw [htree₂]
    change Tree.Frees _ (Tree.setLink _ _ ((s₁.disk.ino _).nlink - 1))
    rw [← Disk.tree_nlink (hg₁.live hip hv₁), hd₁, hf₁.inum ip hip, htree hl,
      Tree.setLink_setLink]
    have hn : ((s₀.disk.tree sb).setLink (s.ic ip).inum
        ((s₀.disk.tree sb).nlink (s.ic ip).inum + 1)).nlink (s.ic ip).inum - 1 =
        (s₀.disk.tree sb).nlink (s.ic ip).inum := by
      change (if (s.ic ip).inum = (s.ic ip).inum then _ else _) - 1 = _
      rw [if_pos rfl]
      exact BitVec.add_sub_cancel ..
    rw [hn, Tree.setLink_self]
    exact .refl

/-- The directories into which a call puts the new name `path`. -/
def Comes (sb : Superblock) (s : State) (p : Pid) (path : List UInt8) (d : Nat) : Prop :=
  ∃ name, s.resolve sb p path true = some (d, name) ∧ s.disk.lookup sb d name = none

theorem sysLink_spec (h : Good sb m P [] s) (hr : m.linked → Ready sb s) (hq : q → m.sound)
    (p : Pid) (old new : List UInt8) (hcwd : ∀ c, (s.proc p).cwd = some c → 0 < P c) :
    Run (Fault q (s.disk.Jammed sb)) (fun _ s' => After sb m P [] (Comes sb s p new) gone s s')
      (sysLink sb dev p old new) s := by
  have hk := fun hl => (hr hl).kept
  unfold sysLink nameiparent
  refine Run.modify_bind (Run.bind ((Before.start h true).namei hq p old hcwd) ?_)
  rintro r s₁ ⟨hin₁, hn, hs⟩
  cases r with
  | none => exact ((hn rfl).after h hk).ret
  | some ip =>
    have hip := count_head_pos (P := P) ip []
    refine Run.bind ((hs ip rfl).ilock hq hip) ?_
    rintro _ s₂ ⟨hb₂, -, hd₂, hv₂⟩
    have hli := hb₂.good.live hip hv₂
    have hcopy := hb₂.good.copy hip hv₂
    refine Run.get_bind (Run.ite (fun _ => (hb₂.after h hk).putRet) fun hfile => ?_)
    rw [hcopy] at hfile
    have hnl : m.linked → (s₂.disk.ino (s₂.ic ip).inum).nlink + 1 ≠ 0 := by
      intro hl hc
      have := (hr hl).nlink (s₂.ic ip).inum
      rw [← hb₂.disk hl, Disk.tree_nlink hli] at this
      bv_omega
    refine Run.setMeta hb₂.good hip hv₂ (fun _ => ⟨rfl, rfl, rfl⟩)
      (fun hl hc => absurd hc (hnl hl)) ?_
    intro s₃ hg₃ hf₃ hkept₃ hdisk₃ htree₃
    refine Run.bind (iunlock_spec hg₃ hip) ?_
    rintro _ s₄ ⟨hg₄, hf₄, hd₄⟩
    have hf₀ : Frame P [] s s₄ := hb₂.frame.trans (hf₃.nil.trans hf₄.nil)
    have hi₄ : (s₄.ic ip).inum = (s₂.ic ip).inum := (hf₄.inum ip hip).trans (hf₃.inum ip hip)
    have hv₄ := hf₄.valid ip hip (hf₃.valid ip hip hv₂)
    have hkept₄ : m.linked → Kept sb s₄ := by
      intro hl
      refine (hkept₃ (hb₂.kept h (hk hl) hl)).frame hg₃ hf₄ hg₄ (fun _ => id) fun i hi h0 => ?_
      rw [hd₄] at hi h0
      exact ⟨hi, h0⟩
    have htree₄ : m.linked → s₄.disk.tree sb = (s.disk.tree sb).setLink (s₂.ic ip).inum
        ((s.disk.tree sb).nlink (s₂.ic ip).inum + 1) := by
      intro hl
      rw [hd₄, htree₃, ← hb₂.disk hl, Disk.tree_nlink hli]
    have hres : m.linked → s₄.resolve sb p new true = s.resolve sb p new true := by
      intro hl
      refine State.resolve_congr hf₀.proc
        (fun c hc => hf₀.inum c (Nat.add_pos_left (hcwd c hc) _)) (fun parent l i last => ?_) _ _
      rw [hd₄, hdisk₃, ← hb₂.disk hl]
      exact Disk.walk_congr (SameDir.setMeta (by rfl) (by rfl) (by rfl)) parent l i last
    have hin₄ : Within sb s.disk s₄.disk := by
      rw [hd₄, hdisk₃]
      rw [← hd₂] at hin₁
      exact hin₁.trans fun j _ => SameDir.setMeta (by rfl) (by rfl) (by rfl) j
    -- the same disk with the same references, as far as `linkBad` is concerned
    have hbad : ∀ s₅, Good sb .any P [ip] s₅ → Frame P [ip] s₄ s₅ →
        (m.linked → s₅.disk = s₄.disk) → Run (Fault q (s.disk.Jammed sb))
          (fun _ s' => After sb m P [] (Comes sb s p new) gone s s') (linkBad ip) s₅ := by
      intro s₅ hg₅ hf₅ hd₅
      refine linkBad_spec hg₅ (hf₀.trans hf₅.nil) (fun hl => ?_) (hf₅.valid ip hip hv₄) fun hl => ?_
      · refine (hkept₄ hl).frame hg₄ hf₅ hg₅ (fun _ => id) fun i hi h0 => ?_
        rw [hd₅ hl] at hi h0
        exact ⟨hi, h0⟩
      · rw [hd₅ hl, htree₄ hl, hf₅.inum ip hip, hi₄]
    refine Run.bind (namex_spec p new true hg₄ hq fun c hc => hcwd c (hf₀.proc ▸ hc)) ?_
    rintro r s₅ ⟨hw, hin₅⟩
    cases r with
    | none => exact hbad s₅ (hw.lost rfl).weaken hw.frame hw.disk
    | some x =>
      obtain ⟨dp, name⟩ := x
      have hg₅ := hw.found dp name rfl
      have hdp := count_head_pos (P := P) dp [ip]
      have hip₅ := count_tail_pos dp hip
      refine Run.bind (ilock_spec hg₅ hdp fun hc =>
        (hg₅.sound (hq hc)).cached dp (hg₅.ref_pos hdp)) ?_
      rintro _ s₆ ⟨hg₆, hf₆, hd₆, hv₆⟩
      have hi₆ : (s₆.ic ip).inum = (s₂.ic ip).inum :=
        (hf₆.inum ip hip₅).trans ((hw.frame.inum ip hip).trans hi₄)
      have hv₆' := hf₆.valid ip hip₅ (hw.frame.valid ip hip hv₄)
      have hlive₆ := hg₆.live hip₅ hv₆'
      rw [hi₆] at hlive₆
      have hdisk₆ : m.linked → s₆.disk = s₄.disk := fun hl => hd₆.trans (hw.disk hl)
      have hin₆ : Within sb s.disk s₆.disk := hd₆ ▸ hin₄.trans hin₅
      have hld := hg₆.live hdp hv₆
      refine Run.bind (dirlink_spec hg₆ hdp hv₆ name hlive₆.1 (fun hs _ => ?_)
        fun hd _ => (hin₆ _ hld).jammed hld hd) ?_
      · rw [Nat.mod_eq_of_lt (Nat.lt_of_lt_of_le hlive₆.1 (hr (m.imp hs)).inum)]
        exact hlive₆
      rintro ok s₇ ⟨hdir, hg₇, hf₇, hok⟩
      rcases hok with ⟨rfl, hd₇, -⟩ | ⟨rfl, hnone, hwr⟩
      · refine Run.bind (iunlockput_spec hg₇) ?_
        rintro _ s₈ ⟨hg₈, hf₈, hp⟩
        refine Run.ite (fun _ => ?_) fun hc => absurd rfl hc
        refine hbad s₈ hg₈.weaken (hw.frame.trans (hf₆.tail.trans (hf₇.tail.trans hf₈))) ?_
        exact fun hl => (hp.disk_eq hg₇ hl).trans (hd₇.trans (hdisk₆ hl))
      · have hf₇' : Frame P [ip] s₄ s₇ := hw.frame.trans (hf₆.tail.trans hf₇.tail)
        have ha : After sb m P [dp, ip] (Comes sb s p new) gone s s₇ := by
          refine ⟨hg₇.weaken, hf₀.trans hf₇'.nil, fun hl => ?_, fun hl => ?_⟩
          · refine (hkept₄ hl).frame hg₄ hf₇' hg₇ (fun _ => mem_cons_of_mem _) fun i hi h0 => ?_
            rw [hwr.live, hdisk₆ hl] at hi
            rw [hwr.nlink_eq, hdisk₆ hl] at h0
            exact ⟨hi, h0⟩
          have hi0 : (s₂.ic ip).inum ≠ 0 := by
            intro hc
            have h0 := (hr hl).zero
            rw [← hb₂.disk hl, ← hc] at h0
            exact Disk.tree_live.mpr hli h0
          have htree : s₆.disk.tree sb = (s.disk.tree sb).setLink (s₂.ic ip).inum
              ((s.disk.tree sb).nlink (s₂.ic ip).inum + 1) := by rw [hdisk₆ hl, htree₄ hl]
          have hfree := Disk.freeEntry_empty sb s₆.disk (s₆.ic dp).inum
          have hnames := Disk.lookup_none hnone
          have htd := Disk.tree_dir.mpr ⟨hld, hdir⟩
          rw [htree] at hfree hnames htd
          have hcomes : Comes sb s p new (s₆.ic dp).inum := by
            refine ⟨name, ?_, ?_⟩
            · rw [hf₆.inum dp hdp, ← hres hl]
              exact (hw.path hl).symm
            · rw [hdisk₆ hl, hd₄, hdisk₃, hb₂.disk hl] at hnone
              exact ((SameDir.setMeta (by rfl) (by rfl) (by rfl) _).lookup _).symm.trans hnone
          refine ⟨_, .link (i := (s₂.ic ip).inum) hcomes hi0 ?_ ?_ htd hfree hnames, ?_⟩
          · rw [← hb₂.disk hl]
            exact Disk.tree_live.mpr hli
          · rw [← hb₂.disk hl, Disk.tree_type hli]
            exact hfile
          · rw [Disk.tree_wrote_dir hwr hld hdir (encode_length ..) (freeEntry_le ..), htree,
              decode_encode, Nat.mod_eq_of_lt (Nat.lt_of_lt_of_le hlive₆.1 (hr hl).inum)]
            exact .refl
        refine Run.bind ha.iunlockput fun _ _ ha => ?_
        exact Run.ite (fun hc => nomatch hc) fun _ => Run.bind ha.iput fun _ _ ha => ha.ret

end

/-! ## `create` -/

/-- A free inode is taken; nothing in the cache is about it. -/
theorem Good.fresh (h : Good sb m P T s) (type : BitVec 16) (hi : ¬ s.disk.Live sb i)
    (hn : i < sb.ninodes) :
    Good sb .any P T { s with disk := s.disk.setIno i (.fresh type) } ∧
      Frame P T s { s with disk := s.disk.setIno i (.fresh type) } := by
  have h0 : (s.disk.ino i).type = 0 := not_not.mp fun hc => hi ⟨hn, hc⟩
  have hne : ∀ j, (s.disk.ino j).type ≠ 0 →
      (s.disk.setIno i (.fresh type)).ino j = s.disk.ino j := by
    intro j hj
    refine Disk.setIno_of_ne _ _ ?_
    rintro rfl
    exact hj h0
  refine ⟨⟨h.disk.fresh hi type, h.ref, h.uniq, h.range, fun t ht hv => ?_, fun t ht => ?_,
    False.elim, False.elim⟩, ⟨rfl, rfl, fun _ _ => rfl, fun _ _ => id, fun t _ ht => ?_⟩⟩
  · obtain ⟨hc, hty⟩ := h.clean t ht hv
    change _ = (s.disk.setIno i (.fresh type)).ino _ ∧ _
    rw [hne _ hty]
    exact ⟨hc, hty⟩
  · change ((s.disk.setIno i (.fresh type)).ino _).type ≠ 0
    rw [hne _ (h.held t ht)]
    exact h.held t ht
  · change ((s.disk.setIno i (.fresh type)).ino _).type = _
    rw [hne _ ht]

theorem ialloc_spec (h : Good sb m P T s) (type : BitVec 16) :
    Run (Fault q z) (fun t s' => ∃ i, i ≠ 0 ∧ i < sb.ninodes ∧ ¬ s.disk.Live sb i ∧
        (s'.ic t).inum = i ∧ s'.disk = s.disk.setIno i (.fresh type) ∧
        Good sb .any P (t :: T) s' ∧ Frame P T s s') (ialloc sb type) s := by
  unfold ialloc
  refine Run.get_bind ?_
  split
  · exact Run.throw (Fault.of (by decide))
  next i hfind =>
    have h0 := find?_some hfind
    have hmem := mem_of_find?_eq_some hfind
    simp only [decide_eq_true_eq] at h0
    have hi : i ≠ 0 ∧ i < sb.ninodes := by
      obtain ⟨k, hk, rfl⟩ := mem_drop_iff_getElem.mp hmem
      simp only [length_range, getElem_range] at hk ⊢
      omega
    have hlive : ¬ s.disk.Live sb i := fun hc => hc.2 h0
    obtain ⟨hg, hf⟩ := h.fresh type hlive hi.2
    refine Run.modify_bind (Run.logWrite_bind (Fault.of (by decide)) ?_)
    refine (iget_spec hg hi.2 False.elim).mono ?_
    rintro t s' ⟨hg', hf', hi', hd', -⟩
    exact ⟨i, hi.1, hi.2, hlive, hi', hd', hg', hf.trans hf'⟩

/-- Contents do not matter to the cache. -/
theorem Kept.wrote {off : Nat} {src : List UInt8} (hk : Kept sb s) (h : Good sb m P T s)
    (hf : Frame P T s s') (h' : Good sb m P T s') (hw : Wrote sb i off src s.disk s'.disk) :
    Kept sb s' := by
  refine hk.frame h hf h' (fun _ => id) fun j hj h0 => ?_
  rw [hw.live] at hj
  rw [hw.nlink_eq] at h0
  exact ⟨hj, h0⟩

section
variable {dp ip : ISlot}

/-- The last part of `create`: the name. -/
theorem createName_spec {x : State} {name : List UInt8} {w : Tree} {i d : Nat}
    {type : BitVec 16} (hr : m.linked → Ready sb s₀) (hg : Good sb .any P [ip, dp] x)
    (hf : Frame P [] s₀ x) (hk : m.linked → Kept sb x) (hvi : (x.ic ip).valid = true)
    (hvd : (x.ic dp).valid = true) (hi : (x.ic ip).inum = i) (hd : (x.ic dp).inum = d)
    (hty : (x.disk.ino i).type = type) (htree : m.linked → x.disk.tree sb = w)
    (hnew : x.disk.lookup sb d name = none ∧
      ((x.disk.ino d).type = T_DIR → x.disk.Full sb d → z))
    (hop : m.linked → ∀ k, (w.ent d k).inum = 0 →
      (∀ j, (w.ent d j).inum ≠ 0 → cname (w.ent d j).name ≠ cname name) →
      Tree.Op into gone (s₀.disk.tree sb) (w.setEnt d k ⟨i, strncpy name⟩)) :
    Run (Fault q z) (fun t s' => After sb m P [t] into gone s₀ s' ∧ (s'.ic t).valid = true ∧
        (s'.disk.ino (s'.ic t).inum).type = type)
      (do let c ← dirlink sb dev dp name i
          if c = false then throw .createDirlink else do
            iunlockput dp
            pure ip) x := by
  have hip := count_head_pos (P := P) ip [dp]
  have hip' := count_head_pos (P := P) ip []
  have hdp := count_tail_pos ip (count_head_pos (P := P) dp [])
  have hin : i < sb.ninodes := hi ▸ hg.range ip (hg.ref_pos hip)
  rw [← hd] at hnew
  refine Run.bind (dirlink_spec hg hdp hvd name hin False.elim fun hd _ => hnew.2 hd) ?_
  rintro c x₁ ⟨hdir, hg₁, hf₁, hc⟩
  rcases hc with ⟨-, -, hsome⟩ | ⟨rfl, hnone, hw⟩
  · exact absurd hnew.1 hsome
  refine Run.ite (fun hc => nomatch hc) fun _ => ?_
  have hld := hg.live hdp hvd
  have ha : After sb m P [dp, ip] into gone s₀ x₁ := by
    refine ⟨hg₁.perm (List.Perm.swap ..), hf.trans hf₁.nil, fun hl => (hk hl).wrote hg hf₁ hg₁ hw,
      fun hl => ?_⟩
    have hfree := Disk.freeEntry_empty sb x.disk (x.ic dp).inum
    have hnames := Disk.lookup_none hnone
    rw [htree hl, hd] at hfree hnames
    refine ⟨_, hop hl _ hfree hnames, ?_⟩
    rw [Disk.tree_wrote_dir hw hld hdir (encode_length ..) (freeEntry_le ..), decode_encode,
      Nat.mod_eq_of_lt (Nat.lt_of_lt_of_le hin (hr hl).inum), htree hl, hd]
    exact .refl
  refine Run.bind (iunlockput_spec ha.good) ?_
  rintro _ x₂ ⟨hg₂, hf₂, hp⟩
  have hv₁ := hf₁.valid ip hip hvi
  have hi₁ := hf₁.inum ip hip
  refine Run.pure ⟨ha.put hg₂ hf₂ hp, hf₂.valid ip hip' hv₁, ?_⟩
  have hty₁ : (x₁.disk.ino (x₁.ic ip).inum).type = type := by rw [hw.type_eq, hi₁, hi, hty]
  have hne := (hg₁.live hip hv₁).2
  rw [hf₂.inum ip hip', hf₂.type ip hip' hne, hty₁]

theorem freeEntry_zero {D : Disk} (h : (D.ino i).size = 0) : D.freeEntry sb i = 0 := by
  have h0 : D.entries i = 0 := by rw [Disk.entries, h, Nat.zero_div]
  have := freeEntry_le sb D i
  omega

/-- The two entries of a new directory. -/
theorem createDots_spec {x : State} {w : Tree} {i d : Nat}
    {A : ISlot → State → Prop} {k : Unit → M ISlot}
    (hr : m.linked → Ready sb s₀) (hg : Good sb .any P [ip, dp] x)
    (hk : m.linked → Kept sb x) (hvi : (x.ic ip).valid = true)
    (hi : (x.ic ip).inum = i) (hi0 : i ≠ 0)
    (hsize : (x.disk.ino i).size = 0) (htree : m.linked → x.disk.tree sb = w)
    (hdn : d < sb.ninodes)
    (hrest : ∀ x', Good sb .any P [ip, dp] x' → Frame P [ip, dp] x x' →
      (m.linked → Kept sb x') → (m.linked → x'.disk.tree sb =
        (w.setEnt i 0 ⟨i, strncpy dot⟩).setEnt i 1 ⟨d, strncpy dotdot⟩) →
      (∀ j, j ≠ i → SameDir sb x.disk x'.disk j) →
      Run (Fault q z) A (k ()) x') :
    Run (Fault q z) A (do
      let a ← dirlink sb dev ip dot i
      if a = false then do
        let r ← throw .createDots
        k r
      else do
        let b ← dirlink sb dev ip dotdot d
        if b = false then do
          let r ← throw .createDots
          k r
        else k ()) x := by
  have hip := count_head_pos (P := P) ip [dp]
  have hin : i < sb.ninodes := hi ▸ hg.range ip (hg.ref_pos hip)
  have hroom : ∀ {x : State} {n : Nat}, (x.ic ip).inum = i → (x.disk.ino i).size = n →
      n ≠ MAXFILE * BSIZE → x.disk.Full sb (x.ic ip).inum → z := by
    rintro x n rfl rfl hn hf
    exact absurd hf.1 hn
  refine Run.bind (dirlink_spec hg hip hvi dot hin False.elim fun _ _ => hroom hi hsize (by decide)) ?_
  rintro a x₁ ⟨hdir, hg₁, hf₁, ha⟩
  refine Run.ite (fun _ => Run.bind (Run.throw (Fault.of (by decide))) fun _ _ => False.elim)
    fun ha' => ?_
  rcases ha with ⟨ha, -⟩ | ⟨-, -, hw⟩
  · exact absurd ha ha'
  have hvi₁ := hf₁.valid ip hip hvi
  have hi₁ : (x₁.ic ip).inum = i := (hf₁.inum ip hip).trans hi
  have hli := hg.live hip hvi
  rw [hi] at hw hdir hli
  rw [freeEntry_zero hsize] at hw
  have hsize₁ : (x₁.disk.ino i).size = DESIZE := by
    rw [hw.size, hsize, encode_length]
    rfl
  refine Run.bind (dirlink_spec hg₁ hip hvi₁ dotdot hdn False.elim
    fun _ _ => hroom hi₁ hsize₁ (by decide)) ?_
  rintro b x₂ ⟨hdir₁, hg₂, hf₂, hb⟩
  refine Run.ite (fun _ => Run.bind (Run.throw (Fault.of (by decide))) fun _ _ => False.elim)
    fun hb' => ?_
  rcases hb with ⟨hb, -⟩ | ⟨-, -, hw₂⟩
  · exact absurd hb hb'
  have hli₁ := hg₁.live hip hvi₁
  rw [hi₁] at hw₂ hdir₁ hli₁
  refine hrest x₂ hg₂ (hf₁.trans hf₂)
    (fun hl => ((hk hl).wrote hg hf₁ hg₁ hw).wrote hg₁ hf₂ hg₂ hw₂) (fun hl => ?_)
    fun j hj => (SameDir.wrote hw hj).trans (SameDir.wrote hw₂ hj)
  have htree₁ : x₁.disk.tree sb = w.setEnt i 0 ⟨i, strncpy dot⟩ := by
    rw [Disk.tree_wrote_dir hw hli hdir (encode_length ..) (Nat.zero_le _), decode_encode,
      Nat.mod_eq_of_lt (Nat.lt_of_lt_of_le hin (hr hl).inum), htree hl]
  have hent : x₁.disk.entries i = 1 := by
    rw [Disk.entries, hsize₁]
    rfl
  have hfree : x₁.disk.freeEntry sb i = 1 := by
    have hle := freeEntry_le sb x₁.disk i
    have hne : x₁.disk.freeEntry sb i ≠ 0 := by
      intro hc
      have := Disk.freeEntry_empty sb x₁.disk i
      rw [hc, htree₁] at this
      exact hi0 ((congrArg Dirent.inum (if_pos ⟨rfl, rfl⟩)).symm.trans this)
    omega
  rw [hfree] at hw₂
  rw [Disk.tree_wrote_dir hw₂ hli₁ hdir₁ (encode_length ..) (by omega), decode_encode,
    Nat.mod_eq_of_lt (Nat.lt_of_lt_of_le hdn (hr hl).inum), htree₁]

theorem createNew_spec (gone : Nat → Nat → Prop) {name : List UInt8} {major minor : BitVec 16}
    (h : Good sb m P [] s₀) (hr : m.linked → Ready sb s₀) (hb : Before sb m P [dp] s₀ s)
    (hvd : (s.ic dp).valid = true) (hdir : (s.disk.ino (s.ic dp).inum).type = T_DIR)
    (ht0 : type ≠ 0) (hinto : m.linked → into (s.ic dp).inum) (hin₀ : Within sb s₀.disk s.disk)
    (hnone : s.disk.lookup sb (s.ic dp).inum name = none) :
    Run (Fault q (s₀.disk.Jammed sb)) (fun t s' => After sb m P [t] into gone s₀ s' ∧ (s'.ic t).valid = true ∧
        (s'.disk.ino (s'.ic t).inum).type = type)
      (createNew sb dev dp name type major minor) s := by
  have hdp := count_head_pos (P := P) dp []
  unfold createNew
  refine Run.bind (ialloc_spec hb.good type) ?_
  rintro ip s₁ ⟨i, hi0, hin, hfree, hi₁, hd₁, hg₁, hf₁⟩
  have hip := count_head_pos (P := P) ip [dp]
  have hdp₁ := count_tail_pos ip hdp
  have hld := hb.good.live hdp hvd
  have hdi : (s.ic dp).inum ≠ i := fun hc => hfree (hc ▸ hld)
  have hlive₁ : s₁.disk.Live sb (s₁.ic ip).inum := by
    rw [hi₁, hd₁]
    refine ⟨hin, ?_⟩
    rw [Disk.setIno_self]
    exact ht0
  refine Run.bind (ilock_spec hg₁ hip fun _ => hlive₁) ?_
  rintro _ s₂ ⟨hg₂, hf₂, hd₂, hv₂⟩
  have hi₂ : (s₂.ic ip).inum = i := (hf₂.inum ip hip).trans hi₁
  have hf₂' : Frame P [dp] s s₂ := hf₁.trans hf₂.tail
  have hkept₂ : m.linked → Kept sb s₂ := by
    intro hl j hj h0
    by_cases hji : j = i
    · exact ⟨ip, hi₂.trans hji.symm, hg₂.ref_pos hip, hv₂⟩
    · rw [hd₂, hd₁] at hj h0
      rw [Disk.setIno_of_ne _ _ hji] at h0
      have hj' : s.disk.Live sb j :=
        (Disk.live_congr (by rw [Disk.setIno_of_ne _ _ hji])).mp hj
      obtain ⟨t, ht, hrt, hvt⟩ := hb.kept h (hr hl).kept hl j hj' h0
      rw [hb.good.ref] at hrt
      refine ⟨t, (hf₂'.inum t hrt).trans ht, ?_, hf₂'.valid t hrt hvt⟩
      rw [hg₂.ref]
      exact count_tail_pos ip hrt
  refine Run.setMeta hg₂ hip hv₂ (fun _ => ⟨rfl, rfl, rfl⟩) False.elim ?_
  intro s₃ hg₃ hf₃ hkept₃ hdisk₃ htree₃
  have hf₃' : Frame P [dp] s s₃ := hf₂'.trans hf₃.tail
  have hi₃ : (s₃.ic ip).inum = i := (hf₃.inum ip hip).trans hi₂
  have hd₃ : (s₃.ic dp).inum = (s.ic dp).inum := hf₃'.inum dp hdp
  have hvi₃ := hf₃.valid ip hip hv₂
  have hvd₃ := hf₃'.valid dp hdp hvd
  have hino₃ : (s₃.disk.ino i).type = type ∧ (s₃.disk.ino i).size = 0 := by
    rw [hdisk₃, hi₂, Disk.setIno_self, hd₂, hd₁, Disk.setIno_self]
    exact ⟨rfl, rfl⟩
  have htree : m.linked → s₃.disk.tree sb =
      ((s₀.disk.tree sb).reset i type).setLink i 1 := by
    intro hl
    rw [htree₃, hi₂, hd₂, hd₁, Disk.tree_fresh hfree hin, hb.disk hl]
  have hdir₀ : m.linked → (s₀.disk.tree sb).type (s.ic dp).inum = T_DIR := by
    intro hl
    rw [← hb.disk hl]
    exact Disk.tree_dir.mpr ⟨hld, hdir⟩
  have hfree₀ : m.linked → (s₀.disk.tree sb).type i = 0 := by
    intro hl
    rw [← hb.disk hl]
    exact not_not.mp fun hc => hfree (Disk.tree_live.mp hc)
  have hsame₃ : SameDir sb s.disk s₃.disk (s.ic dp).inum := by
    rw [hdisk₃]
    refine .trans ?_ (SameDir.setMeta (by rfl) (by rfl) (by rfl) _)
    rw [hd₂, hd₁]
    exact SameDir.fresh hfree type hdi
  have hnew : ∀ {D : Disk}, SameDir sb s.disk D (s.ic dp).inum →
      D.lookup sb (s.ic dp).inum name = none ∧ ((D.ino (s.ic dp).inum).type = T_DIR →
        D.Full sb (s.ic dp).inum → s₀.disk.Jammed sb) := fun h =>
    ⟨(h.lookup name).trans hnone, ((hin₀ _ hld).trans h).jammed (h.live.2 hld)⟩
  refine Run.get_bind (Run.ite (fun hd => ?_) fun hd => ?_)
  · subst hd
    refine Run.setMeta hg₃ hdp₁ hvd₃ (fun _ => ⟨rfl, rfl, rfl⟩) False.elim ?_
    intro s₄ hg₄ hf₄ hkept₄ hdisk₄ htree₄
    rw [hi₃, hd₃]
    refine createDots_spec hr hg₄ (fun hl => hkept₄ (hkept₃ (hkept₂ hl))) (hf₄.valid ip hip hvi₃)
      ((hf₄.inum ip hip).trans hi₃) hi0 ?_ (fun hl => htree₄) hld.1 ?_
    · rw [hdisk₄, hd₃, Disk.setIno_of_ne _ _ hdi.symm]
      exact hino₃.2
    intro s₅ hg₅ hf₅ hkept₅ htree₅ hsame₅
    have hf₅' := hf₄.trans hf₅
    have hsame₄ : SameDir sb s₃.disk s₄.disk (s.ic dp).inum := by
      rw [hdisk₄]
      exact SameDir.setMeta (by rfl) (by rfl) (by rfl) _
    refine createName_spec hr hg₅ (hb.frame.trans (hf₃'.nil.trans hf₅'.nil)) hkept₅
      (hf₅'.valid ip hip hvi₃) (hf₅'.valid dp hdp₁ hvd₃) ((hf₅'.inum ip hip).trans hi₃)
      ((hf₅'.inum dp hdp₁).trans hd₃) ?_ htree₅
      (hnew (hsame₃.trans (hsame₄.trans (hsame₅ _ hdi)))) ?_
    · have := hf₅'.type ip hip (by rw [hi₃, hino₃.1]; exact ht0)
      rwa [hi₃, hino₃.1] at this
    · intro hl k hk hn
      have hnl : (s₃.disk.ino (s.ic dp).inum).nlink =
          (s₀.disk.tree sb).nlink (s.ic dp).inum := by
        rw [hdisk₃, hi₂, Disk.setIno_of_ne _ _ hdi, hd₂, hd₁, Disk.setIno_of_ne _ _ hdi,
          ← hb.disk hl, Disk.tree_nlink hld]
      have hent : ∀ j, (((((s₃.disk.tree sb).setLink (s.ic dp).inum
          ((s₃.disk.ino (s.ic dp).inum).nlink + 1)).setEnt i 0 ⟨i, strncpy dot⟩).setEnt i 1
          ⟨(s.ic dp).inum, strncpy dotdot⟩).ent (s.ic dp).inum j) =
          (s₀.disk.tree sb).ent (s.ic dp).inum j := by
        intro j
        rw [htree hl]
        simp only [Tree.setEnt, Tree.setLink, Tree.reset, hdi, false_and, if_false]
      simp only [hd₃] at hk hn ⊢
      simp only [hent] at hk hn
      have hd0 : (s.ic dp).inum ≠ 0 := by
        intro hc
        have := hdir₀ hl
        rw [hc, (hr hl).zero] at this
        cases this
      rw [htree hl, hnl]
      exact .mkdir (hinto hl) hi0 hd0 (hfree₀ hl) (hdir₀ hl) hk hn
  · rw [hi₃]
    refine createName_spec hr hg₃ (hb.frame.trans hf₃'.nil) (fun hl => hkept₃ (hkept₂ hl)) hvi₃
      hvd₃ hi₃ hd₃ hino₃.1 htree (hnew hsame₃) ?_
    intro hl k hk hn
    have hent : ∀ j, ((((s₀.disk.tree sb).reset i type).setLink i 1).ent (s.ic dp).inum j) =
        (s₀.disk.tree sb).ent (s.ic dp).inum j := fun j => if_neg hdi
    simp only [hent] at hk hn
    exact .create (hinto hl) hi0 (hfree₀ hl) ht0 hd (hdir₀ hl) hk hn

theorem create_spec (gone : Nat → Nat → Prop) (h : Good sb m P [] s₀) (hr : m.linked → Ready sb s₀)
    (hq : q → m.sound) (p : Pid) (path : List UInt8) (major minor : BitVec 16)
    (hcwd : ∀ c, (s₀.proc p).cwd = some c → 0 < P c) (hb : Before sb m P [] s₀ s)
    (hd₀ : s.disk = s₀.disk) (ht0 : type ≠ 0) :
    Run (Fault q (s₀.disk.Jammed sb))
      (fun r s' => (r = none → After sb m P [] (Comes sb s₀ p path) gone s₀ s') ∧
        ∀ t, r = some t → After sb m P [t] (Comes sb s₀ p path) gone s₀ s' ∧
          (s'.ic t).valid = true ∧ (s'.disk.ino (s'.ic t).inum).type = type)
      (create sb dev p path type major minor) s := by
  have hk := fun hl => (hr hl).kept
  unfold create nameiparent
  refine Run.bind (hb.namex hq p path true hcwd) ?_
  rintro r s₁ ⟨hin₁, hn, hs⟩
  cases r with
  | none => exact Run.pure ⟨fun _ => (hn rfl).after h hk, fun _ => (nomatch ·)⟩
  | some x =>
    obtain ⟨dp, name⟩ := x
    obtain ⟨hb₁, -, hpath, hdir⟩ := hs dp name rfl
    obtain ⟨-, hdir⟩ := hdir rfl
    have hdp := count_head_pos (P := P) dp []
    refine Run.bind (hb₁.ilock hq hdp) ?_
    rintro _ s₂ ⟨hb₂, hf₂, hd₂, hvd⟩
    have hid : (s₂.ic dp).inum = (s₁.ic dp).inum := hf₂.inum dp hdp
    rw [← hd₂, ← hid] at hdir
    refine Run.bind (dirlookup_spec hb₂.good hdp hvd name) ?_
    rintro r s₃ ⟨-, hd₃, hf₃, hr₃⟩
    rcases hr₃ with ⟨rfl, rfl, hnone⟩ | ⟨ip, j, rfl, -, -, hg₃, -⟩
    · have hinto : m.linked → Comes sb s₀ p path (s₃.ic dp).inum := by
        intro hl
        refine ⟨name, ?_, ?_⟩
        · rw [hpath hl, hid]
        · rw [← hb₂.disk hl]
          exact hnone
      have hin₃ : Within sb s₀.disk s₃.disk := by
        rw [hd₂, ← hd₀]
        exact hin₁
      refine Run.bind (createNew_spec gone h hr hb₂ hvd hdir ht0 hinto hin₃ hnone) ?_
      rintro t s₄ ht
      refine Run.pure ⟨(nomatch ·), fun u hu => ?_⟩
      cases hu
      exact ht
    · have hb₃ : Before sb m P [dp, ip] s₀ s₃ :=
        hb₂.step (hg₃.perm (List.Perm.swap ..)) hf₃ fun _ => hd₃
      have hip := count_head_pos (P := P) ip []
      refine Run.bind (iunlockput_spec hb₃.good) ?_
      rintro _ s₄ ⟨hg₄, hf₄, hp⟩
      have hb₄ := hb₃.step hg₄ hf₄ fun hl => hp.disk_eq hb₃.good hl
      refine Run.bind (hb₄.ilock hq hip) ?_
      rintro _ s₅ ⟨hb₅, -, -, hv₅⟩
      refine Run.get_bind (Run.ite (fun hc => ?_) fun _ => ?_)
      · refine Run.pure ⟨(nomatch ·), fun u hu => ?_⟩
        cases hu
        refine ⟨hb₅.after h hk, hv₅, ?_⟩
        rw [← hb₅.good.copy hip hv₅, hc.2, hc.1]
      · have ha : After sb m P [ip] (Comes sb s₀ p path) gone s₀ s₅ := hb₅.after h hk
        refine Run.bind ha.iunlockput fun _ _ ha => ?_
        exact Run.pure ⟨fun _ => ha, fun _ => (nomatch ·)⟩

theorem make_spec (h : Good sb m P [] s) (hr : m.linked → Ready sb s) (hq : q → m.sound) (p : Pid)
    (path : List UInt8) (major minor : BitVec 16) (hcwd : ∀ c, (s.proc p).cwd = some c → 0 < P c)
    (ht0 : type ≠ 0) :
    Run (Fault q (s.disk.Jammed sb)) (fun _ s' => After sb m P [] (Comes sb s p path) gone s s')
      (make sb dev p path type major minor) s := by
  unfold make
  refine Run.modify_bind (Run.bind
    (create_spec gone h hr hq p path major minor hcwd (Before.start h true) rfl ht0) ?_)
  rintro r s₁ ⟨hn, hs⟩
  cases r with
  | none => exact (hn rfl).ret
  | some ip => exact (hs ip rfl).1.putRet

end

end Xv6.Fs
