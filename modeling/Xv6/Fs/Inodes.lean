import Xv6.Fs.Invariant

/-!
# The inode cache

What `iget`, `idup`, `ilock`, `iunlock` and `iput` do to the invariant.  `iput` is the
one routine that frees an inode: it does so when the reference it drops is the last one
and the inode has no links.
-/

namespace Xv6.Fs

open Function List

/-- What is asked of the state beyond well-formedness. -/
structure Mode where
  linked : Prop
  sound : Prop
  imp : sound → linked

/-- Nothing. -/
def Mode.any : Mode := ⟨False, False, id⟩

variable {sb : Superblock} {m : Mode} {q z : Prop} {P : ISlot → Nat} {T : List ISlot}
  {s s' : State}

/-! ## The invariant -/

/-- An inode without links is one that is held. -/
def Linked (sb : Superblock) (P : ISlot → Nat) (s : State) : Prop :=
  ∀ i, s.disk.Live sb i → (s.disk.ino i).nlink = 0 → ∃ t, (s.ic t).inum = i ∧ 0 < P t

/-- Every entry of a directory names an allocated inode. -/
def Disk.NoDangle (sb : Superblock) (D : Disk) : Prop :=
  ∀ i, D.Live sb i → (D.ino i).type = T_DIR → ∀ k < D.entries i,
    (D.dirent sb i k).inum ≠ 0 → D.Live sb (D.dirent sb i k).inum

variable {i : Nat}

theorem Disk.NoDangle.setMeta {D : Disk} (h : D.NoDangle sb) {d : Dinode}
    (ht : d.type = (D.ino i).type) (ha : d.addrs = (D.ino i).addrs)
    (hs : d.size = (D.ino i).size) : (D.setIno i d).NoDangle sb := by
  have hsame := @SameDir.setMeta sb D i d ht ha hs
  intro j hj hd k hk hne
  rw [(hsame j).dirent] at hne ⊢
  rw [(hsame _).live] at hj ⊢
  rw [(hsame j).entries] at hk
  exact h j hj ((hsame j).type.symm.trans hd) k hk hne

/-- No entry dangles, the root is there, and what is in the cache is allocated. -/
structure Sound (sb : Superblock) (s : State) : Prop where
  entry : s.disk.NoDangle sb
  root : s.disk.Live sb ROOTINO
  cached : ∀ t, 0 < (s.ic t).ref → s.disk.Live sb (s.ic t).inum

/-- The invariant inside a call: entry `t` has `P t` lasting references and those of the call. -/
structure Good (sb : Superblock) (m : Mode) (P : ISlot → Nat) (T : List ISlot)
    (s : State) : Prop where
  disk : Ok sb s.disk
  ref : ∀ t, (s.ic t).ref = P t + T.count t
  uniq : ∀ t u, 0 < (s.ic t).ref → 0 < (s.ic u).ref → (s.ic t).inum = (s.ic u).inum → t = u
  range : ∀ t, 0 < (s.ic t).ref → (s.ic t).inum < sb.ninodes
  clean : ∀ t, 0 < (s.ic t).ref → (s.ic t).valid = true →
    (s.ic t).copy = s.disk.ino (s.ic t).inum ∧ (s.disk.ino (s.ic t).inum).type ≠ 0
  held : ∀ t, 0 < P t → (s.disk.ino (s.ic t).inum).type ≠ 0
  linked : m.linked → Linked sb P s
  sound : m.sound → Sound sb s

/-- What a routine leaves alone: the tables of files and processes, and what the cache knows about
entries that are referenced throughout. -/
structure Frame (P : ISlot → Nat) (T : List ISlot) (s s' : State) : Prop where
  ft : s'.ft = s.ft
  proc : s'.proc = s.proc
  inum : ∀ t, 0 < P t + T.count t → (s'.ic t).inum = (s.ic t).inum
  valid : ∀ t, 0 < P t + T.count t → (s.ic t).valid = true → (s'.ic t).valid = true
  type : ∀ t, 0 < P t + T.count t → (s.disk.ino (s.ic t).inum).type ≠ 0 →
    (s'.disk.ino (s.ic t).inum).type = (s.disk.ino (s.ic t).inum).type

/-- The errors that the invariant excludes. -/
def Err (q : Prop) (e : Panic) : Prop := e ≠ .freeingFree ∧ (q → e ≠ .noType)

/-- The errors of a call; `z` is what `dirlink` panics over. -/
def Fault (q z : Prop) (e : Panic) : Prop :=
  Err q e ∧ e ≠ .createDirlink ∧ (e = .dirlink → z)

theorem Fault.of {e : Panic} (h : (e ≠ .freeingFree ∧ e ≠ .noType) ∧ e ≠ .createDirlink ∧
    e ≠ .dirlink) : Fault q z e :=
  ⟨⟨h.1.1, fun _ => h.1.2⟩, h.2.1, fun he => absurd he h.2.2⟩

namespace Frame

theorem refl : Frame P T s s :=
  ⟨rfl, rfl, fun _ _ => rfl, fun _ _ h => h, fun _ _ _ => rfl⟩

theorem trans {s₁ s₂ s₃ : State} (h : Frame P T s₁ s₂) (h' : Frame P T s₂ s₃) :
    Frame P T s₁ s₃ where
  ft := h'.ft.trans h.ft
  proc := h'.proc.trans h.proc
  inum t ht := (h'.inum t ht).trans (h.inum t ht)
  valid t ht hv := h'.valid t ht (h.valid t ht hv)
  type t ht h0 := by
    have h1 := h.type t ht h0
    have h2 := h'.type t ht (by rw [h.inum t ht, h1]; exact h0)
    rw [h.inum t ht] at h2
    rw [h2, h1]

theorem tail {u : ISlot} (h : Frame P (u :: T) s s') : Frame P T s s' := by
  have hc : ∀ t, 0 < P t + T.count t → 0 < P t + (u :: T).count t := by
    intro t ht
    have := count_le_count_cons (a := t) (b := u) (l := T)
    omega
  exact ⟨h.ft, h.proc, fun t ht => h.inum t (hc t ht), fun t ht => h.valid t (hc t ht),
    fun t ht => h.type t (hc t ht)⟩

end Frame

variable {T' : List ISlot}

namespace Good

section
variable (h : Good sb m P T s)
include h

theorem mode {m' : Mode} (hl : m'.linked → Linked sb P s)
    (hs : m'.sound → Sound sb s) : Good sb m' P T s :=
  { h with linked := hl, sound := hs }

/-- Ask for nothing beyond well-formedness. -/
theorem weaken : Good sb .any P T s :=
  h.mode False.elim False.elim

theorem perm (hp : T.Perm T') : Good sb m P T' s :=
  { h with ref := fun t => by rw [h.ref t, hp.count_eq] }

theorem congr (hd : s'.disk = s.disk) (hi : s'.ic = s.ic) : Good sb m P T s' := by
  refine ⟨hd ▸ h.disk, ?_, ?_, ?_, ?_, ?_, fun hl => ?_, fun hs => ⟨?_, ?_, ?_⟩⟩
  · rw [hi]; exact h.ref
  · rw [hi]; exact h.uniq
  · rw [hi]; exact h.range
  · rw [hi, hd]; exact h.clean
  · rw [hi, hd]; exact h.held
  · unfold Linked
    rw [hi, hd]
    exact h.linked hl
  · rw [hd]; exact (h.sound hs).entry
  · rw [hd]; exact (h.sound hs).root
  · rw [hi, hd]; exact (h.sound hs).cached

theorem ref_pos {t : ISlot} (ht : 0 < P t + T.count t) : 0 < (s.ic t).ref := by
  rw [h.ref]
  exact ht

theorem live {t : ISlot} (ht : 0 < P t + T.count t)
    (hv : (s.ic t).valid = true) : s.disk.Live sb (s.ic t).inum :=
  ⟨h.range t (h.ref_pos ht), (h.clean t (h.ref_pos ht) hv).2⟩

theorem copy {t : ISlot} (ht : 0 < P t + T.count t)
    (hv : (s.ic t).valid = true) : (s.ic t).copy = s.disk.ino (s.ic t).inum :=
  (h.clean t (h.ref_pos ht) hv).1

end

end Good

/-! ## One entry changes -/

def State.setI (s : State) (t : ISlot) (e : Inode) : State :=
  { s with ic := update s.ic t e }

@[simp] theorem setI_self (s : State) (t : ISlot) (e : Inode) : (s.setI t e).ic t = e :=
  update_self ..

theorem setI_of_ne (s : State) {t u : ISlot} (e : Inode) (h : u ≠ t) :
    (s.setI t e).ic u = s.ic u :=
  update_of_ne h ..

theorem modI_eq (t : ISlot) (f : Inode → Inode) (s : State) :
    modI t f s = .ok ((), s.setI t (f (s.ic t))) := rfl

variable {e : Inode}

/-- The entry `t` becomes `e`, and the call's references `T'`. -/
theorem Good.setI {t : ISlot} (h : Good sb m P T s)
    (hT : ∀ u, u ≠ t → T'.count u = T.count u) (hr : e.ref = P t + T'.count t)
    (hP : 0 < P t → e.inum = (s.ic t).inum)
    (hu : 0 < e.ref → ∀ u, u ≠ t → 0 < (s.ic u).ref → (s.ic u).inum ≠ e.inum)
    (hn : 0 < e.ref → e.inum < sb.ninodes)
    (hc : 0 < e.ref → e.valid = true →
      e.copy = s.disk.ino e.inum ∧ (s.disk.ino e.inum).type ≠ 0)
    (hl : m.sound → 0 < e.ref → s.disk.Live sb e.inum) : Good sb m P T' (s.setI t e) := by
  have key : ∀ {A : ISlot → Inode → Prop}, (∀ u, u ≠ t → A u (s.ic u)) → A t e →
      ∀ u, A u ((s.setI t e).ic u) := by
    intro A h1 h2 u
    by_cases hut : u = t
    · subst hut
      rw [setI_self]
      exact h2
    · rw [setI_of_ne _ _ hut]
      exact h1 u hut
  refine ⟨h.disk, ?_, ?_, ?_, ?_, ?_, fun hlk => ?_,
    fun hs => ⟨(h.sound hs).entry, (h.sound hs).root, ?_⟩⟩
  · exact key (A := fun u x => x.ref = P u + T'.count u)
      (fun u hut => by rw [h.ref, hT u hut]) hr
  · intro a b
    by_cases ha : a = t
    · subst ha
      by_cases hb : b = a
      · subst hb
        exact fun _ _ _ => rfl
      · rw [setI_self, setI_of_ne _ _ hb]
        exact fun h1 h2 h3 => absurd h3.symm (hu h1 b hb h2)
    · rw [setI_of_ne _ _ ha]
      by_cases hb : b = t
      · subst hb
        rw [setI_self]
        exact fun h1 h2 h3 => absurd h3 (hu h2 a ha h1)
      · rw [setI_of_ne _ _ hb]
        exact h.uniq a b
  · exact key (A := fun _ x => 0 < x.ref → x.inum < sb.ninodes) (fun u _ => h.range u) hn
  · exact key (A := fun _ x => 0 < x.ref → x.valid = true →
      x.copy = s.disk.ino x.inum ∧ (s.disk.ino x.inum).type ≠ 0) (fun u _ => h.clean u) hc
  · exact key (A := fun u x => 0 < P u → (s.disk.ino x.inum).type ≠ 0) (fun u _ => h.held u)
      fun hp => by rw [hP hp]; exact h.held t hp
  · intro i hi h0
    obtain ⟨u, hu1, hu2⟩ := h.linked hlk i hi h0
    refine ⟨u, ?_, hu2⟩
    by_cases hut : u = t
    · subst hut
      rw [setI_self, hP hu2, hu1]
    · rw [setI_of_ne _ _ hut, hu1]
  · exact key (A := fun _ x => 0 < x.ref → s.disk.Live sb x.inum)
      (fun u _ => (h.sound hs).cached u) (hl hs)

theorem Frame.setI {t : ISlot}
    (h : 0 < P t + T.count t → e.inum = (s.ic t).inum ∧ ((s.ic t).valid = true → e.valid = true)) :
    Frame P T s (s.setI t e) := by
  refine ⟨rfl, rfl, fun u hu => ?_, fun u hu => ?_, fun _ _ _ => rfl⟩
  · by_cases hut : u = t
    · subst hut
      rw [setI_self]
      exact (h hu).1
    · rw [setI_of_ne _ _ hut]
  · by_cases hut : u = t
    · subst hut
      rw [setI_self]
      exact (h hu).2
    · rw [setI_of_ne _ _ hut]
      exact id

/-- Only the lock or the count of the entry changes. -/
theorem Good.setI_same {t : ISlot} (h : Good sb m P T s)
    (hT : ∀ u, u ≠ t → T'.count u = T.count u) (hr : e.ref = P t + T'.count t)
    (hpos : 0 < (s.ic t).ref) (hi : e.inum = (s.ic t).inum) (hv : e.valid = (s.ic t).valid)
    (hc : e.copy = (s.ic t).copy) : Good sb m P T' (s.setI t e) := by
  refine h.setI hT hr (fun _ => hi) ?_ ?_ ?_ ?_
  · intro _ u hu hu' he
    exact hu (h.uniq u t hu' hpos (he.trans hi))
  · exact fun _ => hi ▸ h.range t hpos
  · rw [hi, hv, hc]
    exact fun _ => h.clean t hpos
  · rw [hi]
    exact fun hs _ => (h.sound hs).cached t hpos

theorem count_cons_of_ne {t u : ISlot} (h : u ≠ t) : (t :: T).count u = T.count u := by
  rw [count_cons, if_neg (by simpa using h.symm), Nat.add_zero]

/-! ## `iget` and `idup` -/

/-- The reference that `iput` drops is the last one, and there are no links. -/
def State.Last (s : State) (t : ISlot) : Prop :=
  (s.ic t).ref = 1 ∧ (s.ic t).valid = true ∧ (s.ic t).copy.nlink = 0

instance (s : State) (t : ISlot) : Decidable (s.Last t) := inferInstanceAs (Decidable (_ ∧ _))

/-- The entry of the cache that is about inode `i`. -/
def State.cached (s : State) (i : Nat) : Option ISlot :=
  (List.finRange NINODE).find? fun t => 0 < (s.ic t).ref ∧ (s.ic t).inum = i

/-- The first entry that is not in use. -/
def State.vacant (s : State) : Option ISlot :=
  (List.finRange NINODE).find? fun t => (s.ic t).ref = 0

theorem iget_cached {t : ISlot} (h : s.cached i = some t) :
    iget i s = .ok (t, s.setI t { s.ic t with ref := (s.ic t).ref + 1 }) := by
  unfold State.cached at h
  unfold iget
  rw [seq_get, h]
  rfl

theorem iget_vacant {t : ISlot} (h : s.cached i = none) (ht : s.vacant = some t) :
    iget i s = .ok (t, s.setI t { s.ic t with inum := i, ref := 1, busy := false, valid := false }) := by
  unfold State.cached at h
  unfold State.vacant at ht
  unfold iget
  rw [seq_get, h]
  dsimp only
  rw [ht]
  rfl

theorem iget_full (h : s.cached i = none) (hv : s.vacant = none) :
    iget i s = .error .igetNoInodes := by
  unfold State.cached at h
  unfold State.vacant at hv
  unfold iget
  rw [seq_get, h]
  dsimp only
  rw [hv]
  rfl

theorem vacant_some {t : ISlot} (h : s.vacant = some t) : (s.ic t).ref = 0 := by
  have h0 := find?_some h
  exact of_decide_eq_true h0

theorem iget_spec (h : Good sb m P T s) (hi : i < sb.ninodes) (hl : m.sound → s.disk.Live sb i) :
    Run (Fault q z) (fun t s' => Good sb m P (t :: T) s' ∧ Frame P T s s' ∧
      (s'.ic t).inum = i ∧ s'.disk = s.disk ∧ ¬ s'.Last t) (iget i) s := by
  unfold iget
  refine Run.get_bind ?_
  split
  next t ht =>
    have hp := find?_some ht
    simp only [decide_eq_true_eq] at hp
    refine Run.bind_eq (modI_eq ..) (Run.pure ⟨?_, ?_, ?_, rfl, ?_⟩)
    · refine h.setI_same (fun u hu => count_cons_of_ne hu) ?_ hp.1 rfl rfl rfl
      simp only [h.ref t, count_cons_self]
      omega
    · exact Frame.setI fun _ => ⟨rfl, id⟩
    · rw [setI_self]
      exact hp.2
    · rintro ⟨h1, -, -⟩
      rw [setI_self] at h1
      have : (s.ic t).ref + 1 = 1 := h1
      omega
  next hnone =>
    have hno : ∀ u, 0 < (s.ic u).ref → (s.ic u).inum ≠ i := by
      intro u hu hui
      have := find?_eq_none.mp hnone u (mem_finRange u)
      simp only [decide_eq_true_eq] at this
      exact this ⟨hu, hui⟩
    split
    · exact Run.throw (Fault.of (by decide))
    next t ht =>
      have h0 := find?_some ht
      simp only [decide_eq_true_eq] at h0
      have hz : P t = 0 ∧ T.count t = 0 := by
        have := h.ref t
        omega
      refine Run.bind_eq (modI_eq ..) (Run.pure ⟨?_, ?_, ?_, rfl, ?_⟩)
      · refine h.setI (fun u hu => count_cons_of_ne hu) ?_ (fun hp => by omega)
          (fun _ u _ hu => hno u hu) (fun _ => hi) (fun _ hv => by cases hv) fun hs _ => hl hs
        simp only [count_cons_self]
        omega
      · exact Frame.setI fun hp => by omega
      · rw [setI_self]
      · rintro ⟨-, h2, -⟩
        rw [setI_self] at h2
        cases h2

theorem idup_spec (h : Good sb m P T s) {t : ISlot} (ht : 0 < P t + T.count t) :
    Run (Fault q z) (fun u s' => u = t ∧ Good sb m P (t :: T) s' ∧ Frame P T s s' ∧
      s'.disk = s.disk) (idup t) s := by
  unfold idup
  refine Run.bind_eq (modI_eq ..) (Run.pure ⟨rfl, ?_, Frame.setI fun _ => ⟨rfl, id⟩, rfl⟩)
  refine h.setI_same (fun u hu => count_cons_of_ne hu) ?_ (h.ref_pos ht) rfl rfl rfl
  simp only [h.ref t, count_cons_self]
  omega

/-! ## `ilock` and `iunlock` -/

theorem ilock_spec (h : Good sb m P T s) {t : ISlot} (ht : 0 < P t + T.count t)
    (hq : q → s.disk.Live sb (s.ic t).inum) :
    Run (Fault q z) (fun _ s' => Good sb m P T s' ∧ Frame P T s s' ∧ s'.disk = s.disk ∧
      (s'.ic t).valid = true) (ilock t) s := by
  have hpos := h.ref_pos ht
  unfold ilock
  refine Run.get_bind (Run.ite (fun _ => Run.throw (Fault.of (by decide))) fun _ => ?_)
  refine Run.ite (fun _ => Run.throw (Fault.of (by decide))) fun _ => ?_
  refine Run.bind_eq (modI_eq ..) (Run.ite (fun hv => ?_) fun hv => ?_)
  · refine Run.pure ⟨?_, Frame.setI fun _ => ⟨rfl, id⟩, rfl, ?_⟩
    · exact h.setI_same (fun _ _ => rfl) (h.ref t) hpos rfl rfl rfl
    · rw [setI_self]
      exact hv
  · refine Run.bind_eq (modI_eq ..) (Run.ite (fun h0 => ?_) fun h0 => ?_)
    · exact Run.throw ⟨⟨by decide, fun hq' => absurd h0 (hq hq').2⟩, by decide, nofun⟩
    · have he : (s.setI t { s.ic t with busy := true }).setI t
          { (s.setI t { s.ic t with busy := true }).ic t with
            copy := s.disk.ino ((s.setI t { s.ic t with busy := true }).ic t).inum
            valid := true } = s.setI t { s.ic t with
              busy := true, copy := s.disk.ino (s.ic t).inum, valid := true } := by
        simp only [State.setI, update_self, update_idem]
      refine Run.pure ?_
      rw [he]
      refine ⟨?_, Frame.setI fun _ => ⟨rfl, fun _ => rfl⟩, rfl, ?_⟩
      · refine h.setI (fun _ _ => rfl) (h.ref t) (fun _ => rfl) ?_ (fun _ => h.range t hpos)
          (fun _ _ => ⟨rfl, h0⟩) fun hs _ => (h.sound hs).cached t hpos
        exact fun _ u hu hu' he => hu (h.uniq u t hu' hpos he)
      · rw [setI_self]

theorem iunlock_spec (h : Good sb m P T s) {t : ISlot} (ht : 0 < P t + T.count t) :
    Run (Fault q z) (fun _ s' => Good sb m P T s' ∧ Frame P T s s' ∧ s'.disk = s.disk)
      (iunlock t) s := by
  unfold iunlock
  refine Run.get_bind (Run.ite (fun _ => Run.throw (Fault.of (by decide))) fun _ => ?_)
  refine Run.of_eq (modI_eq ..) ⟨?_, Frame.setI fun _ => ⟨rfl, id⟩, rfl⟩
  exact h.setI_same (fun _ _ => rfl) (h.ref t) (h.ref_pos ht) rfl rfl rfl

/-! ## Stores to the disk -/

theorem Run.logWrite_bind {α : Type} {Q : Panic → Prop} {A : α → State → Prop} {k : Unit → M α}
    (hq : Q .outsideTrans) (h : Run Q A (k ()) s) : Run Q A (logWrite >>= k) s := by
  refine Run.bind (P := fun _ s' => s' = s) ?_ fun _ _ he => he ▸ h
  unfold logWrite
  exact Run.get_bind (Run.ite (fun _ => Run.pure rfl) fun _ => Run.throw hq)

theorem logWrite_spec : Run (Fault q z) (fun _ s' => s' = s) logWrite s := by
  unfold logWrite
  exact Run.get_bind (Run.ite (fun _ => Run.pure rfl) fun _ => Run.throw (Fault.of (by decide)))

theorem iupdate_spec (t : ISlot) :
    Run (Fault q z) (fun _ s' => s' = { s with disk := s.disk.setIno (s.ic t).inum (s.ic t).copy })
      (iupdate t) s := by
  unfold iupdate
  exact Run.get_bind (Run.modify_bind logWrite_spec)

theorem bfree_spec {b : Nat} (hb : s.disk.bit b = true) :
    Run (Fault q z) (fun _ s' => s' = { s with disk := s.disk.setBit b false }) (bfree b) s := by
  unfold bfree
  refine Run.get_bind (Run.ite (fun h => ?_) fun _ => Run.modify_bind logWrite_spec)
  rw [hb] at h
  cases h

/-! ## `itrunc` -/

/-- The free map once the blocks held at the places `done` are given back. -/
def Returned (sb : Superblock) (D : Disk) (done : Ptr → Prop) (B : Nat → Bool) : Prop :=
  ∀ b, B b = true ↔ D.bit b = true ∧ ∀ r, done r → D.ptr sb r = b → b = 0

namespace Returned

variable {D : Disk} {done done' : Ptr → Prop} {B : Nat → Bool} {r : Ptr}

/-- A block that has not been given back is still marked. -/
theorem bit_ptr (h : Returned sb D done B) (ho : Owned sb D) (hr : ¬ done r)
    (h0 : D.ptr sb r ≠ 0) : B (D.ptr sb r) = true := by
  refine (h _).mpr ⟨ho.used r h0, fun r' hr' he => absurd ?_ hr⟩
  rw [ho.inj r r' h0 he.symm]
  exact hr'

theorem add (h : Returned sb D done B) (h0 : D.ptr sb r ≠ 0)
    (hd : ∀ x, done' x ↔ done x ∨ x = r) :
    Returned sb D done' (update B (D.ptr sb r) false) := by
  intro b
  by_cases hb : b = D.ptr sb r
  · rw [hb, update_self]
    refine ⟨(nomatch ·), fun hc => ?_⟩
    exact absurd (hc.2 r ((hd r).mpr (.inr rfl)) rfl) h0
  · rw [update_of_ne hb, h b]
    refine and_congr_right fun _ => ⟨fun hc x hx he => ?_, fun hc x hx => hc x ((hd x).mpr (.inl hx))⟩
    rcases (hd x).mp hx with hx | rfl
    · exact hc x hx he
    · exact absurd he.symm hb

theorem skip (h : Returned sb D done B) (h0 : D.ptr sb r = 0)
    (hd : ∀ x, done' x ↔ done x ∨ x = r) : Returned sb D done' B := by
  intro b
  rw [h b]
  refine and_congr_right fun _ => ⟨fun hc x hx he => ?_, fun hc x hx => hc x ((hd x).mpr (.inl hx))⟩
  rcases (hd x).mp hx with hx | rfl
  · exact hc x hx he
  · exact he.symm.trans h0

end Returned

/-- The state inside `itrunc`: the free map and the copy of the inode have changed. -/
def State.trunc (s : State) (t : ISlot) (c : Dinode) (B : Nat → Bool) : State :=
  { s with
    disk := { s.disk with bit := B }
    ic := update s.ic t { s.ic t with copy := c } }

@[simp] theorem trunc_copy (s : State) (t : ISlot) (c : Dinode) (B : Nat → Bool) :
    ((s.trunc t c B).ic t).copy = c := by
  simp [State.trunc]

theorem modC_trunc (s : State) (t : ISlot) (c : Dinode) (B : Nat → Bool) (f : Dinode → Dinode) :
    modC t f (s.trunc t c B) = .ok ((), s.trunc t (f c) B) := by
  unfold modC
  rw [modI_eq]
  simp [State.setI, State.trunc]

section
variable {t : ISlot} {c : Dinode} {B : Nat → Bool} {done done' : Ptr → Prop} {r : Ptr}

theorem bfree_trunc (ho : Owned sb s.disk) (hB : Returned sb s.disk done B) (hr : ¬ done r)
    (h0 : s.disk.ptr sb r ≠ 0) (hd : ∀ x, done' x ↔ done x ∨ x = r) :
    Run (Fault q z) (fun _ s' => ∃ B', s' = s.trunc t c B' ∧ Returned sb s.disk done' B')
      (bfree (s.disk.ptr sb r)) (s.trunc t c B) :=
  (bfree_spec (hB.bit_ptr ho hr h0)).mono fun _ _ he => ⟨_, he, hB.add h0 hd⟩

theorem truncSlot_spec (ho : Owned sb s.disk) (hB : Returned sb s.disk done B) (hr : ¬ done r)
    {k : Fin (NDIRECT + 1)} (hk : c.addrs k = s.disk.ptr sb r)
    (hd : ∀ x, done' x ↔ done x ∨ x = r) :
    Run (Fault q z) (fun _ s' => ∃ B', s' = s.trunc t (c.setAddr k 0) B' ∧
      Returned sb s.disk done' B') (truncSlot t k) (s.trunc t c B) := by
  unfold truncSlot
  refine Run.get_bind (Run.ite (fun h0 => ?_) fun h0 => ?_)
  · rw [trunc_copy] at h0
    refine Run.pure ⟨B, ?_, hB.skip (hk.symm.trans h0) hd⟩
    rw [Dinode.setAddr, ← h0, update_eq_self]
  · rw [trunc_copy] at h0 ⊢
    rw [hk]
    refine Run.bind (bfree_trunc ho hB hr (hk ▸ h0) hd) fun _ s' hs => ?_
    obtain ⟨B', rfl, hB'⟩ := hs
    exact Run.of_eq (modC_trunc ..) ⟨B', rfl, hB'⟩

end

/-- The first loop: the direct blocks are given back. -/
theorem truncDirect_spec (ho : Owned sb s.disk) {t : ISlot}
    (hl : s.disk.Live sb (s.ic t).inum) (hc : (s.ic t).copy = s.disk.ino (s.ic t).inum) :
    Run (Fault q z) (fun _ s' => ∃ c B, s' = s.trunc t c B ∧
        Returned sb s.disk (fun r => ∃ k, r = .direct (s.ic t).inum k) B ∧
        { c with addrs := (s.ic t).copy.addrs } = (s.ic t).copy ∧
        (∀ k : Fin NDIRECT, c.addrs k.castSucc = 0) ∧
        c.addrs indSlot = (s.ic t).copy.addrs indSlot)
      ((List.finRange NDIRECT).forM fun k => truncSlot t k.castSucc) s := by
  -- the places done are those whose slot is not in the rest of the list
  let I : List (Fin NDIRECT) → State → Prop := fun l s' => l.Nodup ∧ ∃ c B, s' = s.trunc t c B ∧
    Returned sb s.disk (fun r => ∃ k, k ∉ l ∧ r = .direct (s.ic t).inum k) B ∧
    { c with addrs := (s.ic t).copy.addrs } = (s.ic t).copy ∧
    (∀ k, c.addrs k.castSucc = if k ∈ l then (s.ic t).copy.addrs k.castSucc else 0) ∧
    c.addrs indSlot = (s.ic t).copy.addrs indSlot
  refine (Run.forM I ?_ _ ?_).mono fun _ s' hI => ?_
  · intro k l s' ⟨hnd, c, B, hs, hB, he, ha, hi⟩
    subst hs
    obtain ⟨hk, hnd⟩ := nodup_cons.mp hnd
    have hptr : c.addrs k.castSucc = s.disk.ptr sb (.direct (s.ic t).inum k) := by
      rw [ha, if_pos (mem_cons_self ..), hc]
      exact (Disk.slot_of_live hl _).symm
    have hd : ∀ x, (∃ k', k' ∉ l ∧ x = Ptr.direct (s.ic t).inum k') ↔
        (∃ k', k' ∉ k :: l ∧ x = .direct (s.ic t).inum k') ∨ x = .direct (s.ic t).inum k := by
      intro x
      constructor
      · rintro ⟨k', hk', rfl⟩
        by_cases h : k' = k
        · exact .inr (by rw [h])
        · exact .inl ⟨k', by simp [h, hk'], rfl⟩
      · rintro (⟨k', hk', rfl⟩ | rfl)
        · exact ⟨k', fun h => hk' (mem_cons_of_mem _ h), rfl⟩
        · exact ⟨k, hk, rfl⟩
    have hnot : ¬ ∃ k', k' ∉ k :: l ∧ Ptr.direct (s.ic t).inum k = .direct (s.ic t).inum k' := by
      rintro ⟨k', hk', h⟩
      injection h with _ h
      exact hk' (h ▸ mem_cons_self ..)
    refine (truncSlot_spec ho hB hnot hptr hd).mono fun _ s' ⟨B', hs, hB'⟩ => ?_
    refine ⟨hnd, _, B', hs, hB', he, fun k' => ?_, ?_⟩
    · simp only [Dinode.setAddr, update_apply, Fin.castSucc_inj]
      by_cases h : k' = k
      · rw [if_pos h, h, if_neg hk]
      · rw [if_neg h, ha]
        simp [h]
    · simp only [Dinode.setAddr, update_apply]
      rw [if_neg (indSlot_ne k), hi]
  · refine ⟨nodup_finRange _, (s.ic t).copy, s.disk.bit, ?_, fun b => ?_, rfl, ?_, rfl⟩
    · simp [State.trunc]
    · simp
    · simp
  · obtain ⟨-, c, B, hs, hB, he, ha, hi⟩ := hI
    exact ⟨c, B, hs, by simpa using hB, he, by simpa using ha, hi⟩

/-- The second loop and the indirect block itself. -/
theorem truncIndirect_spec (ho : Owned sb s.disk) {t : ISlot} {c : Dinode} {B : Nat → Bool}
    (hB : Returned sb s.disk (fun r => ∃ k, r = .direct (s.ic t).inum k) B)
    (hi : c.addrs indSlot = s.disk.slot sb (s.ic t).inum indSlot) :
    Run (Fault q z) (fun _ s' => ∃ B', s' = s.trunc t (c.setAddr indSlot 0) B' ∧
      Returned sb s.disk (fun r => r.ino = (s.ic t).inum) B') (truncIndirect t)
      (s.trunc t c B) := by
  generalize hin : (s.ic t).inum = i at *
  unfold truncIndirect
  refine Run.get_bind (Run.ite (fun h0 => ?_) fun h0 => ?_)
  · rw [trunc_copy] at h0
    have hz : s.disk.slot sb i indSlot = 0 := hi.symm.trans h0
    refine Run.pure ⟨B, ?_, fun b => (hB b).trans (and_congr_right fun _ => ?_)⟩
    · rw [Dinode.setAddr, ← h0, update_eq_self]
    · -- without an indirect block only the direct places hold anything
      refine ⟨fun h r hr he => ?_, fun h r hr => hr.elim fun k hr => h r (hr ▸ rfl)⟩
      cases r with
      | direct j k => exact h _ ⟨k, by rw [show j = i from hr]⟩ he
      | indirect j => rw [← he, show j = i from hr]; exact hz
      | entry j x => rw [← he, show j = i from hr]; exact if_pos hz
  · rw [trunc_copy] at h0 ⊢
    have hne : s.disk.slot sb i indSlot ≠ 0 := hi ▸ h0
    let done : List Nat → Ptr → Prop := fun l r =>
      (∃ k, r = .direct i k) ∨ ∃ j : Fin NINDIRECT, j.val ∉ l ∧ r = .entry i j
    let I : List Nat → State → Prop := fun l s' => l.Nodup ∧ (∀ x ∈ l, x < NINDIRECT) ∧
      ∃ B', s' = s.trunc t c B' ∧ Returned sb s.disk (done l) B'
    have hloop : Run (Fault q z) (fun _ => I []) ((List.range NINDIRECT).forM
        (truncEntry ((s.trunc t c B).disk.blk (c.addrs indSlot)))) (s.trunc t c B) := by
      refine Run.forM I ?_ _ ?_
      · rintro x l s' ⟨hnd, hlt, B', hs, hB'⟩
        subst hs
        obtain ⟨hx, hnd⟩ := nodup_cons.mp hnd
        have hx128 := hlt x (mem_cons_self ..)
        have hptr : ((s.trunc t c B).disk.blk (c.addrs indSlot)).word x =
            s.disk.ptr sb (.entry i ⟨x, hx128⟩) := by
          rw [hi]
          exact (if_neg hne).symm
        have hd : ∀ r, done l r ↔ done (x :: l) r ∨ r = .entry i ⟨x, hx128⟩ := by
          intro r
          constructor
          · rintro (h | ⟨j, hj, rfl⟩)
            · exact .inl (.inl h)
            · by_cases hjx : j.val = x
              · exact .inr (by rw [show j = ⟨x, hx128⟩ from Fin.ext hjx])
              · exact .inl (.inr ⟨j, by simp [hjx, hj], rfl⟩)
          · rintro ((h | ⟨j, hj, rfl⟩) | rfl)
            · exact .inl h
            · exact .inr ⟨j, fun h => hj (mem_cons_of_mem _ h), rfl⟩
            · exact .inr ⟨_, hx, rfl⟩
        have hnot : ¬ done (x :: l) (.entry i ⟨x, hx128⟩) := by
          rintro (⟨k, h⟩ | ⟨j, hj, h⟩)
          · cases h
          · injection h with _ h
            exact hj (h ▸ mem_cons_self ..)
        have hlt' : ∀ y ∈ l, y < NINDIRECT := fun y hy => hlt y (mem_cons_of_mem _ hy)
        unfold truncEntry
        refine Run.ite (fun h => ?_) fun h => ?_
        · exact Run.pure ⟨hnd, hlt', B', rfl, hB'.skip (hptr ▸ h) hd⟩
        · rw [hptr]
          refine (bfree_trunc ho hB' hnot (hptr ▸ h) hd).mono fun _ s' hs => ?_
          exact ⟨hnd, hlt', hs⟩
      · refine ⟨nodup_range, fun x hx => mem_range.mp hx, B, rfl, fun b => ?_⟩
        refine (hB b).trans (and_congr_right fun _ => ⟨fun h r hr => ?_, fun h r hr => h r (.inl hr)⟩)
        rcases hr with hr | ⟨j, hj, -⟩
        · exact h r hr
        · exact absurd (mem_range.mpr j.isLt) hj
    refine Run.bind hloop fun _ s' hI => ?_
    obtain ⟨-, -, B', hs, hB'⟩ := hI
    subst hs
    refine truncSlot_spec (r := .indirect i) ho hB' ?_ hi fun r => ?_
    · rintro (⟨k, h⟩ | ⟨j, hj, h⟩) <;> cases h
    · cases r with
      | direct j k =>
        refine ⟨fun h => .inl (.inl ⟨k, by rw [show j = i from h]⟩), ?_⟩
        rintro ((⟨k', h⟩ | ⟨j', -, h⟩) | h) <;> cases h
        rfl
      | indirect j =>
        refine ⟨fun h => .inr (by rw [show j = i from h]), ?_⟩
        rintro ((⟨k', h⟩ | ⟨j', -, h⟩) | h) <;> cases h
        rfl
      | entry j x =>
        refine ⟨fun h => .inl (.inr ⟨x, by simp, by rw [show j = i from h]⟩), ?_⟩
        rintro ((⟨k', h⟩ | ⟨j', -, h⟩) | h) <;> cases h
        rfl

/-- The inode once it is truncated. -/
def Dinode.emptied (d : Dinode) : Dinode := { d with addrs := fun _ => 0, size := 0 }

theorem itrunc_spec (ho : Owned sb s.disk) {t : ISlot} (hl : s.disk.Live sb (s.ic t).inum)
    (hc : (s.ic t).copy = s.disk.ino (s.ic t).inum) :
    Run (Fault q z) (fun _ s' => ∃ B, Returned sb s.disk (fun r => r.ino = (s.ic t).inum) B ∧
        s' = { s.trunc t (s.ic t).copy.emptied B with
          disk := { s.disk with bit := B }.setIno (s.ic t).inum (s.ic t).copy.emptied })
      (itrunc t) s := by
  unfold itrunc
  refine Run.bind (truncDirect_spec ho hl hc) fun _ s' ⟨c, B, hs, hB, he, hd, hi⟩ => ?_
  subst hs
  have hind : c.addrs indSlot = s.disk.slot sb (s.ic t).inum indSlot := by
    rw [hi, hc]
    exact (Disk.slot_of_live hl _).symm
  refine Run.bind (truncIndirect_spec ho hB hind) fun _ s' ⟨B', hs, hB'⟩ => ?_
  subst hs
  have hemp : { c.setAddr indSlot 0 with size := 0 } = (s.ic t).copy.emptied := by
    have ha : (c.setAddr indSlot 0).addrs = fun _ => 0 := by
      funext k
      simp only [Dinode.setAddr, update_apply]
      cases k using Fin.lastCases with
      | last => rw [if_pos rfl]
      | cast k => rw [if_neg (indSlot_ne k).symm, hd]
    rw [← he, Dinode.emptied, ← ha]
    rfl
  refine Run.bind_eq (modC_trunc ..) ?_
  rw [hemp]
  refine (iupdate_spec t).mono fun _ s' hs => ⟨B', hB', hs.trans ?_⟩
  simp [State.trunc]

/-! ## `iput` -/

/-- What `iput` does to the disk and to the cache. -/
structure Put (sb : Superblock) (t : ISlot) (s s' : State) : Prop where
  freed : s.Last t → Freed sb (s.ic t).inum s.disk s'.disk
  kept : ¬ s.Last t → s'.disk = s.disk
  other : ∀ u, u ≠ t → s'.ic u = s.ic u
  self : ¬ s.Last t → (s'.ic t).inum = (s.ic t).inum ∧ (s'.ic t).valid = (s.ic t).valid ∧
    (s'.ic t).ref = (s.ic t).ref - 1

/-- An inode is not freed while somebody holds it. -/
theorem Good.not_last {t : ISlot} (h : Good sb m P (t :: T) s) (hl : m.linked) : ¬ s.Last t := by
  rintro ⟨h1, h2, h3⟩
  have hpos : 0 < (s.ic t).ref := by omega
  obtain ⟨hc, ht⟩ := h.clean t hpos h2
  obtain ⟨u, hu, hP⟩ := h.linked hl _ ⟨h.range t hpos, ht⟩ (hc ▸ h3)
  have hut : u = t := h.uniq u t (by rw [h.ref]; omega) hpos hu
  subst hut
  have := h.ref u
  rw [count_cons_self] at this
  omega

theorem freed_of_returned {t : ISlot} {B : Nat → Bool} {d : Dinode} (hd : d.type = 0)
    (hB : Returned sb s.disk (fun r => r.ino = (s.ic t).inum) B) {D : Disk}
    (hbit : D.bit = B) (hblk : D.blk = s.disk.blk)
    (hino : D.ino = update s.disk.ino (s.ic t).inum d) :
    Freed sb (s.ic t).inum s.disk D where
  blk := hblk
  other j hj := by rw [hino, update_of_ne hj]
  self := by rw [hino, update_self, hd]
  bit b := by rw [hbit]; exact hB b

theorem Good.freed {t : ISlot} {D : Disk} (h : Good sb m P (t :: T) s)
    (hl : s.Last t) (hf : Freed sb (s.ic t).inum s.disk D) (he : e.ref = 0) :
    Good sb m P T { s.setI t e with disk := D } := by
  have hr := h.ref t
  rw [hl.1, count_cons_self] at hr
  have hpos : 0 < (s.ic t).ref := by rw [hl.1]; exact Nat.one_pos
  -- the other entries are about other inodes
  have hother : ∀ u, u ≠ t → 0 < (s.ic u).ref →
      D.ino (s.ic u).inum = s.disk.ino (s.ic u).inum := by
    intro u hu hp
    exact hf.other _ fun hi => hu (h.uniq u t hp hpos hi)
  have hne : ∀ u, 0 < ((s.setI t e).ic u).ref → u ≠ t := by
    rintro u hu rfl
    rw [setI_self] at hu
    omega
  refine ⟨h.disk.freed hf, fun u => ?_, fun u v hu hv => ?_, fun u hu => ?_, fun u hu => ?_,
    fun u hu => ?_, fun hlk => absurd hl (h.not_last hlk),
    fun hs => absurd hl (h.not_last (m.imp hs))⟩
  · change ((s.setI t e).ic u).ref = _
    by_cases hut : u = t
    · subst hut
      rw [setI_self, he]
      omega
    · rw [setI_of_ne _ _ hut, h.ref u, count_cons_of_ne hut]
  · have hut := hne u hu
    have hvt := hne v hv
    change 0 < ((s.setI t e).ic u).ref at hu
    change 0 < ((s.setI t e).ic v).ref at hv
    change ((s.setI t e).ic u).inum = ((s.setI t e).ic v).inum → _
    rw [setI_of_ne _ _ hut] at hu ⊢
    rw [setI_of_ne _ _ hvt] at hv ⊢
    exact h.uniq u v hu hv
  · have hut := hne u hu
    change 0 < ((s.setI t e).ic u).ref at hu
    change ((s.setI t e).ic u).inum < _
    rw [setI_of_ne _ _ hut] at hu ⊢
    exact h.range u hu
  · have hut := hne u hu
    change 0 < ((s.setI t e).ic u).ref at hu
    change ((s.setI t e).ic u).valid = true → ((s.setI t e).ic u).copy =
      D.ino ((s.setI t e).ic u).inum ∧ (D.ino ((s.setI t e).ic u).inum).type ≠ 0
    rw [setI_of_ne _ _ hut] at hu ⊢
    rw [hother u hut hu]
    exact h.clean u hu
  · have hp : 0 < (s.ic u).ref := by rw [h.ref]; omega
    have hut : u ≠ t := by
      rintro rfl
      omega
    change (D.ino ((s.setI t e).ic u).inum).type ≠ 0
    rw [setI_of_ne _ _ hut, hother u hut hp]
    exact h.held u hu

theorem Frame.freed {t : ISlot} {D : Disk} (h : Good sb m P (t :: T) s)
    (hl : s.Last t) (hf : Freed sb (s.ic t).inum s.disk D) :
    Frame P T s { s.setI t e with disk := D } := by
  have hr := h.ref t
  rw [hl.1, count_cons_self] at hr
  have hut : ∀ u, 0 < P u + T.count u → u ≠ t := by
    rintro u hu rfl
    omega
  refine ⟨rfl, rfl, fun u hu => ?_, fun u hu => ?_, fun u hu _ => ?_⟩
  · exact congrArg Inode.inum (setI_of_ne _ _ (hut u hu))
  · change (s.ic u).valid = true → ((s.setI t e).ic u).valid = true
    rw [setI_of_ne _ _ (hut u hu)]
    exact id
  · change (D.ino _).type = _
    rw [hf.other]
    intro hi
    refine hut u hu (h.uniq u t ?_ (by rw [hl.1]; exact Nat.one_pos) hi)
    rw [h.ref, count_cons_of_ne (hut u hu)]
    exact hu

theorem iput_spec {t : ISlot} (h : Good sb m P (t :: T) s) :
    Run (Fault q z) (fun _ s' => Good sb m P T s' ∧ Frame P T s s' ∧ Put sb t s s') (iput t) s := by
  have hr := h.ref t
  rw [count_cons_self] at hr
  have hpos : 0 < (s.ic t).ref := by omega
  unfold iput
  refine Run.get_bind (Run.ite (fun hl => ?_) fun hl => ?_)
  · refine Run.ite (fun _ => Run.throw (Fault.of (by decide))) fun _ => ?_
    refine Run.bind_eq (modI_eq ..) ?_
    obtain ⟨hc, ht⟩ := h.clean t hpos hl.2.1
    have hti : (s.setI t { s.ic t with busy := true }).ic t = { s.ic t with busy := true } :=
      setI_self ..
    have hli : s.disk.Live sb (s.ic t).inum := ⟨h.range t hpos, ht⟩
    refine Run.bind (itrunc_spec (s := s.setI t { s.ic t with busy := true }) (t := t)
      h.disk.toOwned (by rw [hti]; exact hli) (by rw [hti]; exact hc)) fun _ s' hs => ?_
    obtain ⟨B, hB, rfl⟩ := hs
    rw [hti] at hB ⊢
    unfold modC
    refine Run.bind_eq (modI_eq ..) (Run.bind (iupdate_spec t) fun _ s' hs => ?_)
    subst hs
    refine Run.of_eq (modI_eq ..) ?_
    -- the state is `s` with the entry empty and the inode freed
    have hf : Freed sb (s.ic t).inum s.disk ⟨B, update s.disk.ino (s.ic t).inum
        { (s.ic t).copy.emptied with type := 0 }, s.disk.blk⟩ :=
      freed_of_returned rfl hB rfl rfl rfl
    have hfin := h.freed (e := ⟨(s.ic t).inum, (s.ic t).ref - 1, false, false,
      { (s.ic t).copy.emptied with type := 0 }⟩) hl hf (by simp [hl.1])
    have hfr := Frame.freed (e := ⟨(s.ic t).inum, (s.ic t).ref - 1, false, false,
      { (s.ic t).copy.emptied with type := 0 }⟩) h hl hf
    simp only [State.setI, State.trunc, Disk.setIno, update_self,
      update_idem] at hfin hfr ⊢
    exact ⟨hfin, hfr, fun _ => hf, fun hn => absurd hl hn, fun u hu => update_of_ne hu ..,
      fun hn => absurd hl hn⟩
  · refine Run.of_eq (modI_eq ..) ⟨?_, ?_, fun hl' => absurd hl' hl, fun _ => rfl,
      fun u hu => setI_of_ne _ _ hu, fun _ => by rw [setI_self]; exact ⟨rfl, rfl, rfl⟩⟩
    · refine h.setI_same (fun u hu => (count_cons_of_ne hu).symm) ?_ hpos rfl rfl rfl
      simp only [hr]
      omega
    · exact Frame.setI fun _ => ⟨rfl, id⟩

theorem iunlockput_spec {t : ISlot} (h : Good sb m P (t :: T) s) :
    Run (Fault q z) (fun _ s' => Good sb m P T s' ∧ Frame P T s s' ∧ Put sb t s s')
      (iunlockput t) s := by
  have ht : 0 < P t + (t :: T).count t := by
    rw [count_cons_self]
    omega
  unfold iunlockput iunlock
  refine Run.bind (P := fun _ s' => s' = s.setI t { s.ic t with busy := false }) ?_ ?_
  · refine Run.get_bind (Run.ite (fun _ => Run.throw (Fault.of (by decide))) fun _ => ?_)
    exact Run.of_eq (modI_eq ..) rfl
  · rintro _ _ rfl
    have hg : Good sb m P (t :: T) (s.setI t { s.ic t with busy := false }) :=
      h.setI_same (fun _ _ => rfl) (h.ref t) (h.ref_pos ht) rfl rfl rfl
    refine (iput_spec hg).mono fun _ s' ⟨h1, h2, h3⟩ => ⟨h1, ?_, ?_⟩
    · have h1 : Frame P T s (s.setI t { s.ic t with busy := false }) :=
        Frame.setI fun _ => ⟨rfl, id⟩
      exact h1.trans h2
    · have hlast : (s.setI t { s.ic t with busy := false }).Last t ↔ s.Last t := by
        unfold State.Last
        rw [setI_self]
      refine ⟨fun hl => ?_, fun hl => h3.kept fun hl' => hl (hlast.mp hl'), fun u hu => ?_,
        fun hl => ?_⟩
      · have := h3.freed (hlast.mpr hl)
        rwa [setI_self] at this
      · rw [h3.other u hu, setI_of_ne _ _ hu]
      · have := h3.self fun hl' => hl (hlast.mp hl')
        rwa [setI_self] at this

/-- An inode without links is in the cache, and has been read. -/
def Kept (sb : Superblock) (s : State) : Prop :=
  ∀ i, s.disk.Live sb i → (s.disk.ino i).nlink = 0 →
    ∃ t, (s.ic t).inum = i ∧ 0 < (s.ic t).ref ∧ (s.ic t).valid = true

/-- The last reference to such an inode frees it. -/
theorem Kept.put {t : ISlot} (hk : Kept sb s) (h : Good sb m P (t :: T) s)
    (hp : Put sb t s s') : Kept sb s' := by
  intro i hi h0
  by_cases hl : s.Last t
  · have hf := hp.freed hl
    have hit : i ≠ (s.ic t).inum := by
      rintro rfl
      exact hi.2 hf.self
    have hino := hf.other i hit
    obtain ⟨u, hu, hu'⟩ := hk i ((Disk.live_congr (by rw [hino])).mp hi) (hino ▸ h0)
    refine ⟨u, ?_⟩
    rw [hp.other u fun hut => hit (hut ▸ hu.symm)]
    exact ⟨hu, hu'⟩
  · rw [hp.kept hl] at hi h0
    obtain ⟨u, hu, hr, hv⟩ := hk i hi h0
    refine ⟨u, ?_⟩
    by_cases hut : u = t
    · subst hut
      obtain ⟨h1, h2, h3⟩ := hp.self hl
      rw [h1, h2, h3]
      refine ⟨hu, ?_, hv⟩
      have hne : (s.ic u).ref ≠ 1 := fun hc => hl ⟨hc, hv, by
        rw [(h.clean u hr hv).1, hu, h0]⟩
      omega
    · rw [hp.other u hut]
      exact ⟨hu, hr, hv⟩

/-- Between calls the references are the lasting ones. -/
theorem Kept.linked (hk : Kept sb s) (h : Good sb m P [] s) : Linked sb P s := by
  intro i hi h0
  obtain ⟨t, ht, hr, -⟩ := hk i hi h0
  refine ⟨t, ht, ?_⟩
  rw [h.ref] at hr
  exact hr

end Xv6.Fs
