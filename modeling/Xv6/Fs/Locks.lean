import Xv6.Fs.Inodes

/-!
# The lock flags of the inode cache

The routines that read and write blocks touch neither a lock flag nor a reference count
(`Lockless`, with one rule per way a program is put together).  `Flags B` says which entries are
locked.  `namei` takes and gives back one lock after another, so that it ends with the flags it began
with.
-/

namespace Xv6.Fs

open Function

/-! ## Routines that touch no lock -/

/-- No lock flag and no reference count changes. -/
def Lockless {α : Type} (m : M α) : Prop := ∀ s, Run (fun _ => True)
  (fun _ s' => ∀ t, (s'.ic t).busy = (s.ic t).busy ∧ (s'.ic t).ref = (s.ic t).ref) m s

namespace Lockless

variable {α β : Type}

theorem pure (a : α) : Lockless (Pure.pure a) := fun _ => Run.pure fun _ => ⟨rfl, rfl⟩

theorem throw (e : Panic) : Lockless (MonadExceptOf.throw e : M α) := fun _ => Run.throw trivial

theorem get : Lockless (MonadState.get : M State) := fun _ => Run.of_eq rfl fun _ => ⟨rfl, rfl⟩

theorem bind {m : M α} {k : α → M β} (h : Lockless m) (hk : ∀ a, Lockless (k a)) :
    Lockless (m >>= k) := by
  intro s
  refine Run.bind (h s) fun a s₁ h₁ => (hk a s₁).mono fun _ s' h₂ t => ?_
  exact ⟨(h₂ t).1.trans (h₁ t).1, (h₂ t).2.trans (h₁ t).2⟩

theorem ite {c : Prop} [Decidable c] {m n : M α} (hm : Lockless m) (hn : Lockless n) :
    Lockless (if c then m else n) := by
  split
  · exact hm
  · exact hn

theorem forM {l : List α} {body : α → M PUnit} (h : ∀ x, Lockless (body x)) :
    Lockless (l.forM body) := by
  induction l with
  | nil => exact pure _
  | cons x l ih => exact bind (h x) fun _ => ih

theorem modD (f : Disk → Disk) : Lockless (Fs.modD f) := fun _ => Run.modify fun _ => ⟨rfl, rfl⟩

theorem modC (ip : ISlot) (f : Dinode → Dinode) : Lockless (Fs.modC ip f) := by
  intro s
  refine Run.of_eq (modI_eq ..) fun t => ?_
  by_cases ht : t = ip
  · subst ht
    rw [setI_self]
    exact ⟨rfl, rfl⟩
  · rw [setI_of_ne _ _ ht]
    exact ⟨rfl, rfl⟩

theorem logWrite : Lockless Fs.logWrite := bind get fun _ => ite (pure _) (throw _)

theorem balloc (sb : Superblock) : Lockless (Fs.balloc sb) := by
  refine bind get fun s => ?_
  split
  · exact throw _
  · exact bind (modD _) fun _ => bind logWrite fun _ => bind (modD _) fun _ =>
      bind logWrite fun _ => pure _

theorem bfree (b : Nat) : Lockless (Fs.bfree b) :=
  bind get fun _ => ite (throw _) (bind (modD _) fun _ => logWrite)

theorem iupdate (ip : ISlot) : Lockless (Fs.iupdate ip) :=
  bind get fun _ => bind (modD _) fun _ => logWrite

theorem truncSlot (ip : ISlot) (k : Fin (NDIRECT + 1)) : Lockless (Fs.truncSlot ip k) :=
  bind get fun _ => ite (pure _) (bind (bfree _) fun _ => modC ip _)

theorem truncIndirect (ip : ISlot) : Lockless (Fs.truncIndirect ip) :=
  bind get fun _ => ite (pure _) (bind (forM fun _ => ite (pure _) (bfree _)) fun _ =>
    truncSlot ip _)

theorem itrunc (ip : ISlot) : Lockless (Fs.itrunc ip) :=
  bind (forM fun _ => truncSlot ip _) fun _ => bind (truncIndirect ip) fun _ =>
    bind (modC ip _) fun _ => iupdate ip

theorem mapSlot (sb : Superblock) (ip : ISlot) (k : Fin (NDIRECT + 1)) :
    Lockless (Fs.mapSlot sb ip k) :=
  bind get fun _ => ite (bind (balloc sb) fun _ => bind (modC ip _) fun _ => pure _) (pure _)

theorem mapEntry (sb : Superblock) (a j : Nat) : Lockless (Fs.mapEntry sb a j) :=
  bind get fun _ => ite (bind (balloc sb) fun _ => bind (modD _) fun _ => bind logWrite fun _ =>
    pure _) (pure _)

theorem bmap (sb : Superblock) (ip : ISlot) (bn : Nat) : Lockless (Fs.bmap sb ip bn) := by
  unfold Fs.bmap
  split
  · exact mapSlot sb ip _
  · exact ite (bind (mapSlot sb ip _) fun _ => mapEntry sb _ _) (throw _)

theorem readLoop (sb : Superblock) (ip : ISlot) (fuel : Nat) :
    ∀ off n, Lockless (Fs.readLoop sb ip fuel off n) := by
  induction fuel with
  | zero =>
    intro off n
    exact pure _
  | succ fuel ih =>
    intro off n
    rw [Fs.readLoop]
    exact ite (pure _) (bind (bmap sb ip _) fun _ => bind get fun _ => bind (ih _ _) fun _ => pure _)

theorem readi (sb : Superblock) (dev : Devsw) (ip : ISlot) (off n : Nat) :
    Lockless (Fs.readi sb dev ip off n) :=
  bind get fun _ => ite (ite (pure _) (pure _)) (ite (pure _)
    (bind (readLoop sb ip _ _ _) fun _ => pure _))

theorem scan (sb : Superblock) (dev : Devsw) (dp : ISlot) (err : Panic) (test : Dirent → Bool)
    (fuel : Nat) : ∀ off, Lockless (Fs.scan sb dev dp err test fuel off) := by
  induction fuel with
  | zero =>
    intro off
    exact pure _
  | succ fuel ih =>
    intro off
    rw [Fs.scan]
    refine bind get fun s => ite (bind (readi sb dev dp off _) fun r => ?_) (pure _)
    cases r with
    | none => exact throw _
    | some l => exact ite (throw _) (ite (pure _) (ih _))

end Lockless

/-! ## Which entries are locked -/

/-- The entries with `B` are locked, and none of them is empty. -/
structure Flags (B : ISlot → Bool) (s : State) : Prop where
  busy : ∀ t, (s.ic t).busy = B t
  idle : ∀ t, (s.ic t).ref = 0 → B t = false

section
variable {B : ISlot → Bool} {s : State} {t : ISlot}

section
variable (h : Flags B s)
include h

theorem Flags.congr {s' : State}
    (hs : ∀ t, (s'.ic t).busy = (s.ic t).busy ∧ (s'.ic t).ref = (s.ic t).ref) : Flags B s' := by
  refine ⟨fun t => ?_, fun t h0 => h.idle t ?_⟩
  · rw [(hs t).1]
    exact h.busy t
  · rw [← (hs t).2]
    exact h0

theorem Flags.lockless {α : Type} {m : M α} (hm : Lockless m) :
    Run (fun _ => True) (fun _ s' => Flags B s') m s := (hm s).mono fun _ _ => h.congr

/-- One entry changes. -/
theorem Flags.setI {e : Inode} (b : Bool) (hb : e.busy = b)
    (h0 : e.ref = 0 → b = false) : Flags (update B t b) (s.setI t e) := by
  constructor
  · intro u
    by_cases hu : u = t
    · subst hu
      rw [setI_self, update_self, hb]
    · rw [setI_of_ne _ _ hu, update_of_ne hu]
      exact h.busy u
  · intro u hr
    by_cases hu : u = t
    · subst hu
      rw [setI_self] at hr
      rw [update_self]
      exact h0 hr
    · rw [setI_of_ne _ _ hu] at hr
      rw [update_of_ne hu]
      exact h.idle u hr

theorem Flags.setI_same {e : Inode} (hb : e.busy = B t)
    (h0 : e.ref = 0 → B t = false) : Flags B (s.setI t e) := by
  have := h.setI (t := t) (B t) hb h0
  rwa [update_eq_self] at this

theorem iget_flags (i : Nat) : Run (fun _ => True) (fun _ s' => Flags B s') (iget i) s := by
  unfold iget
  refine Run.get_bind ?_
  split
  · exact Run.bind_eq (modI_eq ..) (Run.pure (h.setI_same (h.busy _) nofun))
  · split
    · exact Run.throw trivial
    · next u hu =>
      have h0 := List.find?_some hu
      rw [decide_eq_true_eq] at h0
      exact Run.bind_eq (modI_eq ..) (Run.pure (h.setI_same (h.idle u h0).symm nofun))

theorem idup_flags (t : ISlot) : Run (fun _ => True) (fun _ s' => Flags B s') (idup t) s :=
  Run.bind_eq (modI_eq ..) (Run.pure (h.setI_same (h.busy t) nofun))

/-- `ilock` waits for an entry that is locked. -/
theorem ilock_flags (t : ISlot) :
    Run (fun _ => True) (fun _ s' => B t = false ∧ Flags (update B t true) s')
      (ilock t) s := by
  unfold ilock
  refine Run.get_bind (Run.ite (fun _ => Run.throw trivial) fun hr => ?_)
  refine Run.ite (fun _ => Run.throw trivial) fun hbusy => ?_
  have hB : B t = false := by
    rw [← h.busy t]
    exact Bool.eq_false_iff.2 hbusy
  have hset : Flags (update B t true) (s.setI t { s.ic t with busy := true }) :=
    h.setI true rfl fun h0 => absurd (Nat.lt_one_iff.2 h0) hr
  refine Run.bind_eq (modI_eq ..) (Run.ite (fun _ => Run.pure ⟨hB, hset⟩) fun _ => ?_)
  refine Run.bind_eq (modI_eq ..) (Run.ite (fun _ => Run.throw trivial) fun _ => ?_)
  refine Run.pure ⟨hB, hset.setI_same ?_ fun h0 => ?_⟩
  · rw [setI_self, update_self]
  · rw [setI_self] at h0
    exact absurd (Nat.lt_one_iff.2 h0) hr

theorem iunlock_flags (t : ISlot) :
    Run (fun _ => True) (fun _ s' => Flags (update B t false) s') (iunlock t) s := by
  unfold iunlock
  refine Run.get_bind (Run.ite (fun _ => Run.throw trivial) fun _ => ?_)
  exact Run.of_eq (modI_eq ..) (h.setI false rfl fun _ => rfl)

end

theorem update_false (hB : B t = false) : update B t false = B := by
  rw [← hB, update_eq_self]

/-- The last reference to an inode without links is dropped under the lock that is free. -/
theorem iput_flags (h : Flags B s) (hB : B t = false) :
    Run (fun _ => True) (fun _ s' => Flags B s') (iput t) s := by
  unfold iput
  refine Run.get_bind (Run.ite (fun hl => ?_) fun _ => ?_)
  · refine Run.ite (fun _ => Run.throw trivial) fun _ => ?_
    have hset : Flags (update B t true) (s.setI t { s.ic t with busy := true }) :=
      h.setI true rfl fun h0 => absurd (hl.1.symm.trans h0) (by decide)
    refine Run.bind_eq (modI_eq ..) (Run.bind (hset.lockless (.itrunc t)) fun _ s₁ h₁ => ?_)
    refine Run.bind (h₁.lockless (.modC t _)) fun _ s₂ h₂ => ?_
    refine Run.bind (h₂.lockless (.iupdate t)) fun _ s₃ h₃ => Run.of_eq (modI_eq ..) ?_
    have hend := h₃.setI (t := t) (e := { s₃.ic t with
      busy := false, valid := false, ref := (s₃.ic t).ref - 1 }) false rfl fun _ => rfl
    rwa [update_idem, update_false hB] at hend
  · exact Run.of_eq (modI_eq ..) (h.setI_same (h.busy t) fun _ => hB)

theorem iunlockput_flags (h : Flags B s) (t : ISlot) :
    Run (fun _ => True) (fun _ s' => Flags (update B t false) s') (iunlockput t) s :=
  Run.bind (iunlock_flags h t) fun _ _ h₁ => iput_flags h₁ (update_self ..)

/-- The lock of an entry that was free is given back. -/
theorem iunlockput_unlocks (hB : B t = false) (h : Flags (update B t true) s) :
    Run (fun _ => True) (fun _ s' => Flags B s') (iunlockput t) s := by
  refine (iunlockput_flags h t).mono fun _ s' h' => ?_
  rwa [update_idem, update_false hB] at h'

/-! ## Paths -/

variable {sb : Superblock} {dev : Devsw}

theorem dirlookup_flags (h : Flags B s) (dp : ISlot) (name : List UInt8) :
    Run (fun _ => True) (fun _ s' => Flags B s') (dirlookup sb dev dp name) s := by
  unfold dirlookup
  refine Run.get_bind (Run.ite (fun _ => Run.throw trivial) fun _ => ?_)
  refine Run.bind (h.lockless (.scan sb dev dp _ _ _ 0)) fun r s₁ h₁ => ?_
  cases r with
  | none => exact Run.pure h₁
  | some x => exact Run.bind (iget_flags h₁ _) fun _ _ h₂ => Run.pure h₂

theorem namexLoop_flags (es : List (List UInt8)) : ∀ {s : State} {ip : ISlot} {last : List UInt8},
    Flags B s → Run (fun _ => True) (fun _ s' => Flags B s')
      (namexLoop sb dev false ip last es) s := by
  induction es with
  | nil =>
    intro s ip last h
    exact Run.pure h
  | cons name es ih =>
    intro s ip last h
    rw [namexLoop]
    refine Run.bind (ilock_flags h ip) ?_
    rintro _ s₁ ⟨hB, h₁⟩
    refine Run.get_bind (Run.ite (fun _ => ?_) fun _ => ?_)
    · exact Run.bind (iunlockput_unlocks hB h₁) fun _ _ h₂ => Run.pure h₂
    · refine Run.ite (fun hp => absurd hp.1 (by decide)) fun _ => ?_
      refine Run.bind (dirlookup_flags h₁ ip name) fun r s₂ h₂ => ?_
      refine Run.bind (iunlockput_unlocks hB h₂) fun _ s₃ h₃ => ?_
      cases r with
      | none => exact Run.pure h₃
      | some x => exact ih h₃

theorem namei_flags (h : Flags B s) (p : Pid) (path : List UInt8) :
    Run (fun _ => True) (fun _ s' => Flags B s') (namei sb dev p path) s := by
  unfold namei namex
  refine Run.bind (P := fun _ s' => Flags B s') (Run.get_bind ?_) fun _ _ h' => Run.pure h'
  dsimp only
  refine Run.ite (fun _ => Run.bind (iget_flags h _) fun _ _ h' => namexLoop_flags _ h') fun _ => ?_
  split
  · exact Run.throw trivial
  · exact Run.bind (idup_flags h _) fun _ _ h' => namexLoop_flags _ h'

end

end Xv6.Fs
