import Xv6.Lib.Tally
import Xv6.Fs.Names

/-!
# Open files and processes

The lasting references to the inode cache are the open files and the current
directories (`holders`).  `Call` is what holds between calls, and at the end of one:
the invariant with these references, and what the call has done to the naming tree.
-/

namespace Xv6.Fs

open Function List

variable {sb : Superblock} {dev : Devsw} {m : Mode} {q z : Prop} {P : ISlot → Nat}
  {T : List ISlot} {s₀ s s' : State} {t : ISlot} {into : Nat → Prop} {gone : Nat → Nat → Prop}
  {T' U : List ISlot}

/-! ## Who holds an inode -/

/-- The open files and current directories on `t`. -/
def State.holders (s : State) (t : ISlot) : Nat :=
  tally (fun x : File => x.type = .inode ∧ x.ip = t) s.ft +
    tally (fun x : Proc => x.cwd = some t) s.proc

theorem holders_congr (hf : ∀ f, (s'.ft f).type = (s.ft f).type ∧ (s'.ft f).ip = (s.ft f).ip)
    (hp : ∀ p, (s'.proc p).cwd = (s.proc p).cwd) : s'.holders = s.holders := by
  funext t
  exact congrArg₂ (· + ·) (tally_congr fun f => by rw [(hf f).1, (hf f).2])
    (tally_congr fun p => by rw [hp p])

theorem holders_file {f : FSlot} (h : (s.ft f).type = .inode) : 0 < s.holders (s.ft f).ip :=
  Nat.add_pos_left (tally_pos (i := f) ⟨h, rfl⟩) _

theorem holders_cwd {p : Pid} {c : ISlot} (h : (s.proc p).cwd = some c) : 0 < s.holders c :=
  Nat.add_pos_right _ (tally_pos (i := p) h)

/-- The file table: a free entry has no type, and nothing writes to a directory. -/
structure Files (s : State) : Prop where
  empty : ∀ f, (s.ft f).ref = 0 → (s.ft f).type = .none
  plain : ∀ f, (s.ft f).type = .inode → (s.ft f).writable = true →
    (s.disk.ino (s.ic (s.ft f).ip).inum).type ≠ T_DIR

/-- What holds in a call that has changed the tree from `s₀` and still holds `T`. -/
structure Call (sb : Superblock) (m : Mode) (T : List ISlot) (into : Nat → Prop)
    (gone : Nat → Nat → Prop) (s₀ s : State) : Prop where
  good : Good sb .any s.holders T s
  files : Files s
  kept : m.linked → Kept sb s
  tree : m.linked → ∃ v, Tree.Op into gone (s₀.disk.tree sb) v ∧ Tree.Frees v (s.disk.tree sb)

/-- The references are shared out in another way. -/
theorem Good.repay {P' : ISlot → Nat} (h : Good sb m P T s)
    (hr : ∀ t, P' t + T'.count t = P t + T.count t)
    (hheld : ∀ t, 0 < P' t → (s.disk.ino (s.ic t).inum).type ≠ 0) : Good sb .any P' T' s :=
  { h with
    ref := fun t => by rw [h.ref t, hr t]
    held := hheld
    linked := False.elim
    sound := False.elim }

/-! ## Steps of a call -/

theorem holders_frame (hf : Frame P U s s') : s'.holders = s.holders :=
  holders_congr (fun f => by rw [hf.ft]; exact ⟨rfl, rfl⟩) fun p => by rw [hf.proc]

theorem Files.frame (h : Files s) (hg : Good sb m s.holders T s) (hf : Frame s.holders U s s') :
    Files s' := by
  refine ⟨fun f => ?_, fun f hi hw => ?_⟩
  · rw [hf.ft]
    exact h.empty f
  · rw [hf.ft] at hi hw ⊢
    have hpos := holders_file hi
    have hpos' : 0 < s.holders (s.ft f).ip + U.count (s.ft f).ip := by omega
    rw [hf.inum _ hpos', hf.type _ hpos' (hg.held _ hpos)]
    exact h.plain f hi hw

/-- A routine that leaves the tables alone. -/
theorem Call.frame (h : Call sb m T into gone s₀ s) (hg : Good sb .any s.holders T' s')
    (hf : Frame s.holders U s s') (hk : Kept sb s → Kept sb s')
    (ht : Tree.Frees (s.disk.tree sb) (s'.disk.tree sb)) : Call sb m T' into gone s₀ s' := by
  refine ⟨?_, h.files.frame h.good hf, fun hl => hk (h.kept hl), fun hl => ?_⟩
  · rw [holders_frame hf]
    exact hg
  · obtain ⟨v, hv, hfr⟩ := h.tree hl
    exact ⟨v, hv, hfr.trans ht⟩

theorem Call.mono {into' : Nat → Prop} (h : Call sb m T into gone s₀ s)
    (hi : ∀ d, into d → into' d) : Call sb m T into' gone s₀ s :=
  ⟨h.good, h.files, h.kept, fun hl => (h.tree hl).imp fun _ hv => ⟨hv.1.mono hi, hv.2⟩⟩

theorem Call.tx (h : Call sb m T into gone s₀ s) (tx : Bool) :
    Call sb m T into gone s₀ { s with tx := tx } :=
  h.frame (U := T) (h.good.congr rfl rfl)
    ⟨rfl, rfl, fun _ _ => rfl, fun _ _ => id, fun _ _ _ => rfl⟩ (fun hk => hk) .refl

theorem Call.put (h : Call sb m (t :: T) into gone s₀ s) (hg : Good sb .any s.holders T s')
    (hf : Frame s.holders T s s') (hp : Put sb t s s') : Call sb m T into gone s₀ s' :=
  h.frame hg hf (fun hk => hk.put h.good hp) (hp.frees h.good)

theorem Call.iput (h : Call sb m (t :: T) into gone s₀ s) :
    Run (Fault q z) (fun _ s' => Call sb m T into gone s₀ s' ∧ s'.proc = s.proc) (iput t) s :=
  (iput_spec h.good).mono fun _ _ ⟨hg, hf, hp⟩ => ⟨h.put hg hf hp, hf.proc⟩

theorem Call.iunlockput (h : Call sb m (t :: T) into gone s₀ s) :
    Run (Fault q z) (fun _ s' => Call sb m T into gone s₀ s') (iunlockput t) s :=
  (iunlockput_spec h.good).mono fun _ _ ⟨hg, hf, hp⟩ => h.put hg hf hp

section
variable (h : Call sb m T into gone s₀ s)
include h

theorem Call.ret {α : Type} {r : α} :
    Run (Fault q z) (fun _ s' => Call sb m T into gone s₀ s') (do endOp; pure r) s :=
  Run.modify_bind (Run.pure (h.tx false))

/-- A file is replaced.  A file that comes to hold an inode takes over a reference of the call,
and one that no longer does leaves one to it. -/
theorem Call.setF {T' : List ISlot} (f : FSlot) (x : File) (hempty : x.ref = 0 → x.type = .none)
    (hplain : x.type = .inode → x.writable = true →
      (s.disk.ino (s.ic x.ip).inum).type ≠ T_DIR)
    (hheld : x.type = .inode → (s.disk.ino (s.ic x.ip).inum).type ≠ 0)
    (hT : ∀ t, (if x.type = .inode ∧ x.ip = t then 1 else 0) + T'.count t =
      (if (s.ft f).type = .inode ∧ (s.ft f).ip = t then 1 else 0) + T.count t) :
    Call sb m T' into gone s₀ { s with ft := update s.ft f x } := by
  have hh : ∀ t, State.holders { s with ft := update s.ft f x } t +
      (if (s.ft f).type = .inode ∧ (s.ft f).ip = t then 1 else 0) =
      s.holders t + if x.type = .inode ∧ x.ip = t then 1 else 0 := by
    intro t
    have := tally_update (p := fun x : File => x.type = .inode ∧ x.ip = t) s.ft f x
    unfold State.holders
    dsimp only
    omega
  refine ⟨?_, ⟨fun g => ?_, fun g => ?_⟩, h.kept, h.tree⟩
  · refine Good.congr (h.good.repay (fun t => ?_) fun t ht => ?_) rfl rfl
    · have h1 := hh t
      have h2 := hT t
      omega
    · by_cases hx : x.type = .inode ∧ x.ip = t
      · exact hx.2 ▸ hheld hx.1
      · have := hh t
        rw [if_neg hx] at this
        exact h.good.held t (by omega)
  · change (update s.ft f x g).ref = 0 → (update s.ft f x g).type = _
    by_cases hg : g = f
    · subst hg
      rw [update_self]
      exact hempty
    · rw [update_of_ne hg]
      exact h.files.empty g
  · change (update s.ft f x g).type = _ → (update s.ft f x g).writable = _ →
      (s.disk.ino (s.ic (update s.ft f x g).ip).inum).type ≠ _
    by_cases hg : g = f
    · subst hg
      rw [update_self]
      exact hplain
    · rw [update_of_ne hg]
      exact h.files.plain g

/-- A process changes its current directory. -/
theorem Call.setP {T' : List ISlot} (p : Pid) (x : Proc)
    (hheld : ∀ c, x.cwd = some c → (s.disk.ino (s.ic c).inum).type ≠ 0)
    (hT : ∀ t, (if x.cwd = some t then 1 else 0) + T'.count t =
      (if (s.proc p).cwd = some t then 1 else 0) + T.count t) :
    Call sb m T' into gone s₀ { s with proc := update s.proc p x } := by
  have hh : ∀ t, State.holders { s with proc := update s.proc p x } t +
      (if (s.proc p).cwd = some t then 1 else 0) =
      s.holders t + if x.cwd = some t then 1 else 0 := by
    intro t
    have := tally_update (p := fun x : Proc => x.cwd = some t) s.proc p x
    unfold State.holders
    dsimp only
    omega
  refine ⟨?_, ⟨h.files.empty, h.files.plain⟩, h.kept, h.tree⟩
  refine Good.congr (h.good.repay (fun t => ?_) fun t ht => ?_) rfl rfl
  · have h1 := hh t
    have h2 := hT t
    omega
  · by_cases hx : x.cwd = some t
    · exact hheld t hx
    · have := hh t
      rw [if_neg hx] at this
      exact h.good.held t (by omega)

/-- Only descriptors change. -/
theorem Call.setFd (p : Pid) (x : Proc) (hx : x.cwd = (s.proc p).cwd) :
    Call sb m T into gone s₀ { s with proc := update s.proc p x } := by
  refine h.setP p x (fun c hc => ?_) fun t => by rw [hx]
  rw [hx] at hc
  exact h.good.held c (holders_cwd hc)

/-- The end of `chdir` and `exit`: the old directory is given back, and then replaced. -/
theorem Call.moveCwd {α : Type} {r : α} (p : Pid) (c : ISlot)
    (d : Option ISlot) (hc : (s.proc p).cwd = some c)
    (hheld : ∀ t, d = some t → (s.disk.ino (s.ic t).inum).type ≠ 0)
    (hT : ∀ t, (if d = some t then 1 else 0) = T.count t) :
    Run (Fault q z) (fun _ s' => Call sb m [] into gone s₀ s')
      (do Fs.iput c
          endOp
          modP p fun x => { x with cwd := d }
          pure r) s := by
  -- the process already has the new directory, as far as the references are concerned
  have h₁ : Call sb m [c] into gone s₀
      { s with proc := update s.proc p { s.proc p with cwd := d } } := by
    refine h.setP p _ hheld fun t => ?_
    have := hT t
    simp only [hc, count_cons, count_nil, Option.some.injEq, beq_iff_eq]
    omega
  refine Run.bind (iput_spec (h₁.good.congr rfl rfl : Good sb .any _ [c] s)) ?_
  rintro _ s₂ ⟨hg, hf, hp⟩
  have h₂ : Call sb m [] into gone s₀
      { s₂ with proc := update s₂.proc p { s₂.proc p with cwd := d } } := by
    refine h₁.frame (U := []) (hg.congr rfl rfl) ⟨hf.ft, ?_, hf.inum, hf.valid, hf.type⟩
      (fun hk => ?_) ?_
    · dsimp only
      rw [hf.proc]
    · show Kept sb s₂
      exact Kept.put (s := s) hk (h₁.good.congr rfl rfl) hp
    · exact hp.frees (h₁.good.congr rfl rfl)
  exact Run.modify_bind (Run.modify_bind (Run.pure (h₂.tx false)))

/-! ## `file.c` -/

theorem fileclose_spec (f : FSlot) :
    Run (Fault q z) (fun _ s' => Call sb m T into gone s₀ s' ∧ s'.proc = s.proc) (fileclose f) s := by
  unfold fileclose
  refine Run.get_bind (Run.ite (fun _ => Run.throw (Fault.of (by decide))) fun h1 => ?_)
  refine Run.ite (fun h2 => Run.modify ⟨?_, rfl⟩) fun h2 => ?_
  · refine h.setF f _ (fun hc => ?_) (h.files.plain f) (fun hi => h.good.held _ (holders_file hi))
      fun _ => rfl
    change (s.ft f).ref - 1 = 0 at hc
    omega
  · refine Run.modify_bind ?_
    cases htype : (s.ft f).type with
    | none =>
      refine Run.pure ⟨h.setF f _ (fun _ => rfl) nofun nofun fun t => ?_, rfl⟩
      simp only [htype]
    | inode =>
      have hc : Call sb m ((s.ft f).ip :: T) into gone s₀
          { s with ft := update s.ft f { s.ft f with ref := 0, type := .none } } := by
        refine h.setF f _ (fun _ => rfl) nofun nofun fun t => ?_
        rw [count_cons, htype]
        simp only [reduceCtorEq, false_and, if_false, true_and, beq_iff_eq]
        omega
      refine Run.modify_bind (Run.bind (hc.tx true).iput fun _ s₁ ⟨h₁, hp⟩ => ?_)
      exact Run.modify ⟨h₁.tx false, hp⟩

end

/-! ## Reading and writing -/

/-- Between calls, with the naming tree of `s₀`. -/
structure Quiet (sb : Superblock) (m : Mode) (s₀ s : State) : Prop where
  good : Good sb m s.holders [] s
  files : Files s
  kept : m.linked → Kept sb s
  tree : s.disk.tree sb = s₀.disk.tree sb

theorem Quiet.call (h : Quiet sb m s₀ s) : Call sb m [] into gone s₀ s :=
  ⟨h.good.weaken, h.files, h.kept, fun _ => ⟨_, .same, h.tree ▸ .refl⟩⟩

theorem Quiet.frame (h : Quiet sb m s₀ s) (hg : Good sb m s.holders [] s')
    (hf : Frame s.holders U s s') (hk : Kept sb s → Kept sb s')
    (ht : s'.disk.tree sb = s.disk.tree sb) : Quiet sb m s₀ s' := by
  refine ⟨?_, h.files.frame h.good hf, fun hl => hk (h.kept hl), ht.trans h.tree⟩
  rw [holders_frame hf]
  exact hg

theorem Quiet.tx (h : Quiet sb m s₀ s) (tx : Bool) : Quiet sb m s₀ { s with tx := tx } :=
  h.frame (U := []) (h.good.congr rfl rfl)
    ⟨rfl, rfl, fun _ _ => rfl, fun _ _ => id, fun _ _ _ => rfl⟩ (fun hk => hk) rfl

/-- A routine that only touches the cache. -/
theorem Quiet.cache (h : Quiet sb m s₀ s) (hg : Good sb m s.holders [] s')
    (hf : Frame s.holders [] s s') (hd : s'.disk = s.disk) : Quiet sb m s₀ s' := by
  refine h.frame hg hf (fun hk => ?_) (by rw [hd])
  refine hk.frame h.good hf hg (fun _ => id) fun i hi h0 => ?_
  rw [hd] at hi h0
  exact ⟨hi, h0⟩

/-- `f->off += n` -/
def State.advance (s : State) (f : FSlot) (n : Nat) : State :=
  { s with ft := update s.ft f { s.ft f with off := ((s.ft f).off + n) % 2 ^ 32 } }

theorem advance_eq (f : FSlot) (n : Nat) (s : State) : advance f n s = .ok ((), s.advance f n) :=
  rfl

theorem advance_file (s : State) (f g : FSlot) (n : Nat) :
    ((s.advance f n).ft g).type = (s.ft g).type ∧ ((s.advance f n).ft g).ip = (s.ft g).ip ∧
      ((s.advance f n).ft g).writable = (s.ft g).writable := by
  unfold State.advance
  by_cases hg : g = f
  · subst hg
    simp only [update_self, and_self]
  · simp only [update_of_ne hg, and_self]

theorem advance_holders (s : State) (f : FSlot) (n : Nat) :
    (s.advance f n).holders = s.holders :=
  holders_congr (fun g => ⟨(advance_file s f g n).1, (advance_file s f g n).2.1⟩) fun _ => rfl

theorem Quiet.advance (h : Quiet sb m s₀ s) (f : FSlot) (n : Nat) :
    Quiet sb m s₀ (s.advance f n) := by
  have hc : Call sb m [] (fun _ => False) (fun _ _ => False) s₀ s := h.call
  have hc' : Call sb m [] (fun _ => False) (fun _ _ => False) s₀ (s.advance f n) :=
    hc.setF f _ (h.files.empty f) (h.files.plain f)
      (fun hi => h.good.held _ (holders_file hi)) fun _ => rfl
  refine ⟨?_, hc'.files, h.kept, h.tree⟩
  rw [advance_holders]
  exact h.good.congr rfl rfl

section
variable (hq : q → m.sound)
include hq

theorem Quiet.ilock (h : Quiet sb m s₀ s) (ht : 0 < s.holders t) :
    Run (Fault q z) (fun _ s' => Quiet sb m s₀ s' ∧ s'.ft = s.ft ∧ s'.holders = s.holders ∧
      (s'.ic t).valid = true) (ilock t) s := by
  have ht' : 0 < s.holders t + ([] : List ISlot).count t := Nat.add_pos_left ht _
  refine (ilock_spec h.good ht' fun hc => ?_).mono ?_
  · exact (h.good.sound (hq hc)).cached t (h.good.ref_pos ht')
  · rintro _ s' ⟨hg, hf, hd, hv⟩
    exact ⟨h.cache hg hf hd, hf.ft, holders_frame hf, hv⟩

omit hq in
theorem Quiet.iunlock (h : Quiet sb m s₀ s) (ht : 0 < s.holders t) :
    Run (Fault q z) (fun _ s' => Quiet sb m s₀ s' ∧ s'.ft = s.ft) (iunlock t) s := by
  have ht' : 0 < s.holders t + ([] : List ISlot).count t := Nat.add_pos_left ht _
  refine (iunlock_spec h.good ht').mono ?_
  rintro _ s' ⟨hg, hf, hd⟩
  exact ⟨h.cache hg hf hd, hf.ft⟩

theorem fileread_spec (h : Quiet sb m s₀ s) (f : FSlot) (n : Nat) :
    Run (Fault q z) (fun _ s' => Quiet sb m s₀ s') (fileread sb dev f n) s := by
  unfold fileread
  refine Run.get_bind (Run.ite (fun _ => Run.pure h) fun _ => ?_)
  cases htype : (s.ft f).type with
  | none => exact Run.throw (Fault.of (by decide))
  | inode =>
    have hpos := holders_file htype
    refine Run.bind (h.ilock hq hpos) ?_
    rintro _ s₁ ⟨h₁, hft, hh, hv⟩
    have hpos₁ : 0 < s₁.holders (s.ft f).ip := by rwa [hh]
    obtain ⟨r, hr⟩ := readi_same dev h₁.good (Nat.add_pos_left hpos₁ _) hv (s.ft f).off n
    refine Run.bind_eq hr ?_
    cases r with
    | none => exact Run.bind (h₁.iunlock hpos₁) fun _ _ h₂ => Run.pure h₂.1
    | some l =>
      refine Run.bind_eq (advance_eq ..) (Run.bind ((h₁.advance f l.length).iunlock ?_)
        fun _ _ h₂ => Run.pure h₂.1)
      rwa [advance_holders]

theorem filewriteLoop_spec (f : FSlot) :
    ∀ (fuel : Nat) (src : List UInt8) (s : State), Quiet sb m s₀ s → (s.ft f).type = .inode →
      (s.ft f).writable = true →
      Run (Fault q z) (fun _ s' => Quiet sb m s₀ s') (filewriteLoop sb dev f fuel src) s := by
  intro fuel
  induction fuel with
  | zero => exact fun _ _ h _ _ => Run.pure h
  | succ fuel ih =>
    intro src s h htype hw
    unfold filewriteLoop
    refine Run.ite (fun _ => Run.pure h) fun _ => Run.get_bind (Run.modify_bind ?_)
    have hpos := holders_file htype
    refine Run.bind ((h.tx true).ilock hq hpos) ?_
    rintro _ s₁ ⟨h₁, hft, hh, hv⟩
    have hpos₁ : 0 < s₁.holders (s.ft f).ip := by
      rw [hh]
      exact hpos
    have hip : 0 < s₁.holders (s.ft f).ip + ([] : List ISlot).count (s.ft f).ip :=
      Nat.add_pos_left hpos₁ _
    have hplain : (s₁.disk.ino (s₁.ic (s.ft f).ip).inum).type ≠ T_DIR := by
      have := h₁.files.plain f
      rw [hft] at this
      exact this htype hw
    refine Run.bind (writei_good h₁.good hip hv fun hc => absurd hc hplain) ?_
    rintro r s₂ ⟨hg₂, hf₂, hr⟩
    have h₂ : Quiet sb m s₀ s₂ := by
      refine h₁.frame hg₂ hf₂ ?_ ?_
      · rcases hr with ⟨rfl, -⟩ | ⟨-, -, hwr, -⟩
        · exact id
        · exact fun hk => hk.wrote h₁.good hf₂ hg₂ hwr
      · rcases hr with ⟨rfl, -⟩ | ⟨-, -, hwr, -⟩
        · rfl
        · exact Disk.tree_wrote_file hwr hplain
    have hpos₂ : 0 < s₂.holders (s.ft f).ip := by rwa [holders_frame hf₂]
    cases r with
    | none =>
      exact Run.bind (h₂.iunlock hpos₂) fun _ _ h₃ => Run.modify_bind (Run.pure (h₃.1.tx false))
    | some k =>
      refine Run.bind_eq (advance_eq ..) (Run.bind ((h₂.advance f k).iunlock ?_) ?_)
      · rwa [advance_holders]
      rintro _ s₃ ⟨h₃, hft₃⟩
      refine Run.modify_bind (Run.ite (fun _ => Run.throw (Fault.of (by decide))) fun _ => ?_)
      obtain ⟨ha, -, hb⟩ := advance_file s₂ f f k
      refine ih _ _ (h₃.tx false) ?_ ?_
      · change (s₃.ft f).type = _
        rw [hft₃, ha, hf₂.ft, hft]
        exact htype
      · change (s₃.ft f).writable = _
        rw [hft₃, hb, hf₂.ft, hft]
        exact hw

theorem filewrite_spec (h : Quiet sb m s₀ s) (f : FSlot) (src : List UInt8) :
    Run (Fault q z) (fun _ s' => Quiet sb m s₀ s') (filewrite sb dev f src) s := by
  unfold filewrite
  refine Run.get_bind (Run.ite (fun _ => Run.pure h) fun hw => ?_)
  cases htype : (s.ft f).type with
  | none => exact Run.throw (Fault.of (by decide))
  | inode =>
    refine Run.bind (filewriteLoop_spec hq f _ _ _ h htype ?_) fun _ _ h₁ => Run.pure h₁
    simpa using hw

end

/-! ## System calls on descriptors -/

theorem Run.argfd_bind {α : Type} {Q : Panic → Prop} {A : α → State → Prop} {p : Pid} {fd : Nat}
    {k : Option (Fin NOFILE × FSlot) → M α} (h : ∀ r, Run Q A (k r) s) :
    Run Q A (argfd p fd >>= k) s := by
  unfold argfd
  change Run Q A ((if h : fd < NOFILE then pure (((s.proc p).ofile ⟨fd, h⟩).map
    fun f => ((⟨fd, h⟩ : Fin NOFILE), f)) else pure none) >>= k) s
  split
  · exact h _
  · exact h _

theorem fdalloc_spec (h : Call sb m T into gone s₀ s) (p : Pid) (f : FSlot) :
    Run (Fault q z) (fun _ s' => Call sb m T into gone s₀ s' ∧ s'.ft = s.ft ∧ s'.ic = s.ic ∧
      s'.disk = s.disk) (fdalloc p f) s := by
  unfold fdalloc
  refine Run.get_bind ?_
  split
  · exact Run.pure ⟨h, rfl, rfl, rfl⟩
  · exact Run.modify_bind (Run.pure ⟨h.setFd p _ rfl, rfl, rfl, rfl⟩)

theorem filedup_spec (h : Call sb m T into gone s₀ s) (f : FSlot) :
    Run (Fault q z) (fun _ s' => Call sb m T into gone s₀ s' ∧ s'.proc = s.proc) (filedup f) s := by
  unfold filedup
  refine Run.get_bind (Run.ite (fun _ => Run.throw (Fault.of (by decide))) fun _ => ?_)
  refine Run.modify ⟨h.setF f _ nofun (h.files.plain f)
    (fun hi => h.good.held _ (holders_file hi)) fun _ => rfl, rfl⟩

theorem sysDup_spec (h : Call sb m [] into gone s₀ s) (p : Pid) (fd : Nat) :
    Run (Fault q z) (fun _ s' => Call sb m [] into gone s₀ s') (sysDup p fd) s := by
  unfold sysDup
  refine Run.argfd_bind fun r => ?_
  rcases r with _ | ⟨_, f⟩
  · exact Run.pure h
  · refine Run.bind (fdalloc_spec h p f) fun r s₁ h₁ => ?_
    cases r with
    | none => exact Run.pure h₁.1
    | some fd' => exact Run.bind (filedup_spec h₁.1 f) fun _ _ h₂ => Run.pure h₂.1

theorem sysClose_spec (h : Call sb m [] into gone s₀ s) (p : Pid) (fd : Nat) :
    Run (Fault q z) (fun _ s' => Call sb m [] into gone s₀ s') (sysClose p fd) s := by
  unfold sysClose
  refine Run.argfd_bind fun r => ?_
  rcases r with _ | ⟨fd', f⟩
  · exact Run.pure h
  · refine Run.modify_bind (Run.bind (fileclose_spec (h.setFd p ((s.proc p).setFd fd' none) rfl) f) ?_)
    exact fun _ _ h₁ => Run.pure h₁.1

/-! ## `open` -/

theorem filealloc_spec (h : Call sb m T into gone s₀ s) :
    Run (Fault q z) (fun r s' => Call sb m T into gone s₀ s' ∧ s'.ic = s.ic ∧ s'.disk = s.disk ∧
      ∀ f, r = some f → (s'.ft f).type = .none ∧ (s'.ft f).ref = 1) filealloc s := by
  unfold filealloc
  refine Run.get_bind ?_
  split
  · exact Run.pure ⟨h, rfl, rfl, fun _ => (nomatch ·)⟩
  next f hf =>
    have hr := find?_some hf
    simp only [decide_eq_true_eq] at hr
    have ht := h.files.empty f hr
    refine Run.modify_bind (Run.pure ⟨?_, rfl, rfl, fun g hg => ?_⟩)
    · refine h.setF f _ nofun (fun hc => ?_) (fun hc => ?_) fun t => ?_
      · rw [ht] at hc
        cases hc
      · rw [ht] at hc
        cases hc
      · simp only [ht]
    · cases hg
      simp only [update_self]
      exact ⟨ht, trivial⟩

/-- A routine that only touches the cache. -/
theorem Call.cache (h : Call sb m T into gone s₀ s) (hg : Good sb .any s.holders T s')
    (hf : Frame s.holders T s s') (hd : s'.disk = s.disk) : Call sb m T into gone s₀ s' := by
  refine h.frame hg hf (fun hk => ?_) (by rw [hd]; exact .refl)
  refine hk.frame h.good hf hg (fun _ => id) fun i hi h0 => ?_
  rw [hd] at hi h0
  exact ⟨hi, h0⟩

theorem openFile_spec {ip : ISlot} (h : Call sb m [ip] into gone s₀ s) (p : Pid) (omode : Nat)
    (htype : (s.disk.ino (s.ic ip).inum).type ≠ 0)
    (hplain : (s.disk.ino (s.ic ip).inum).type = T_DIR → omode = 0) :
    Run (Fault q z) (fun _ s' => Call sb m [] into gone s₀ s') (openFile p ip omode) s := by
  unfold openFile
  refine Run.bind (filealloc_spec h) ?_
  rintro r s₁ ⟨h₁, hic₁, hd₁, hf₁⟩
  cases r with
  | none => exact Run.bind h₁.iunlockput fun _ _ h₂ => h₂.ret
  | some f =>
    refine Run.bind (fdalloc_spec h₁ p f) ?_
    rintro r s₂ ⟨h₂, hft₂, hic₂, hd₂⟩
    cases r with
    | none =>
      refine Run.bind (fileclose_spec h₂ f) fun _ s₃ h₃ => ?_
      exact Run.bind h₃.1.iunlockput fun _ _ h₄ => h₄.ret
    | some fd =>
      have hip := count_head_pos (P := s₂.holders) ip []
      refine Run.bind (iunlock_spec h₂.good hip) ?_
      rintro _ s₃ ⟨hg₃, hf₃, hd₃⟩
      have h₃ := (h₂.cache hg₃ hf₃ hd₃).tx false
      have hty : (s₃.disk.ino (s₃.ic ip).inum).type = (s.disk.ino (s.ic ip).inum).type := by
        rw [hd₃, hf₃.inum ip hip, hd₂, hic₂, hd₁, hic₁]
      have hold : (s₃.ft f).type = .none ∧ (s₃.ft f).ref = 1 := by
        rw [hf₃.ft, hft₂]
        exact hf₁ f rfl
      refine Run.modify_bind (Run.modify_bind (Run.pure ?_))
      refine h₃.setF f _ (fun hc => ?_) (fun _ hw => ?_) (fun _ => ?_) fun t => ?_
      · change (s₃.ft f).ref = 0 at hc
        omega
      · change (s₃.disk.ino (s₃.ic ip).inum).type ≠ T_DIR
        rw [hty]
        intro hc
        rw [hplain hc] at hw
        simp at hw
      · change (s₃.disk.ino (s₃.ic ip).inum).type ≠ 0
        rwa [hty]
      · simp only [hold.1, count_cons, count_nil, reduceCtorEq, false_and, if_false,
          true_and, beq_iff_eq]
        omega

/-- What is needed of the state between calls. -/
structure Idle (sb : Superblock) (m : Mode) (s : State) : Prop where
  good : Good sb m s.holders [] s
  files : Files s
  ready : m.linked → Ready sb s

section
variable (h : Idle sb m s) (hq : q → m.sound)
include h

theorem Idle.quiet : Quiet sb m s s := ⟨h.good, h.files, fun hl => (h.ready hl).kept, rfl⟩

/-- A call on names. -/
theorem Idle.after (ha : After sb m s.holders T into gone s s') :
    Call sb m T into gone s s' := by
  refine ⟨?_, h.files.frame h.good ha.frame, ha.kept, ha.tree⟩
  rw [holders_frame ha.frame]
  exact ha.good

include hq

theorem sysOpen_spec (p : Pid) (path : List UInt8) (omode : Nat) :
    Run (Fault q (s.disk.Jammed sb)) (fun _ s' =>
        Call sb m [] (fun d => omode &&& O_CREATE ≠ 0 ∧ Comes sb s p path d) gone s s')
      (sysOpen sb dev p path omode) s := by
  have hk := fun hl => (h.ready hl).kept
  unfold sysOpen
  refine Run.modify_bind (Run.ite (fun hcreate => ?_) fun _ => ?_)
  · refine Run.bind (create_spec gone h.good h.ready hq p path 0 0 (fun _ => holders_cwd)
      (Before.start h.good true) rfl (by decide)) ?_
    rintro r s₁ ⟨hn, hs⟩
    cases r with
    | none => exact ((h.after (hn rfl)).mono fun _ hd => ⟨hcreate, hd⟩).ret
    | some ip =>
      obtain ⟨ha, hv, hty⟩ := hs ip rfl
      refine openFile_spec ((h.after ha).mono fun _ hd => ⟨hcreate, hd⟩) p omode ?_ fun hc => ?_
      · rw [hty]
        decide
      · rw [hty] at hc
        cases hc
  · refine Run.bind ((Before.start h.good true).namei hq p path (fun _ => holders_cwd)) ?_
    rintro r s₁ ⟨-, hn, hs⟩
    cases r with
    | none => exact (h.after ((hn rfl).after h.good hk)).ret
    | some ip =>
      have hip := count_head_pos (P := s.holders) ip []
      refine Run.bind ((hs ip rfl).ilock hq hip) ?_
      rintro _ s₂ ⟨hb, -, -, hv⟩
      have hc : Call sb m [ip] (fun d => omode &&& O_CREATE ≠ 0 ∧ Comes sb s p path d) gone s s₂ :=
        h.after (hb.after h.good hk)
      refine Run.get_bind (Run.ite (fun _ => ?_) fun hd => ?_)
      · exact Run.bind hc.iunlockput fun _ _ hc => hc.ret
      · rw [hb.good.copy hip hv] at hd
        refine openFile_spec hc p omode (hb.good.live hip hv).2 fun ht => ?_
        by_contra hne
        exact hd ⟨ht, hne⟩

theorem sysChdir_spec (p : Pid) (path : List UInt8) :
    Run (Fault q z) (fun _ s' => Call sb m [] into gone s s') (sysChdir sb dev p path) s := by
  have hk := fun hl => (h.ready hl).kept
  unfold sysChdir
  refine Run.modify_bind (Run.bind ((Before.start h.good true).namei hq p path (fun _ => holders_cwd)) ?_)
  rintro r s₁ ⟨-, hn, hs⟩
  cases r with
  | none => exact (h.after ((hn rfl).after h.good hk)).ret
  | some ip =>
    have hip := count_head_pos (P := s.holders) ip []
    refine Run.bind ((hs ip rfl).ilock hq hip) ?_
    rintro _ s₂ ⟨hb, -, -, hv⟩
    have hc : Call sb m [ip] into gone s s₂ := h.after (hb.after h.good hk)
    refine Run.get_bind (Run.ite (fun _ => Run.bind hc.iunlockput fun _ _ hc => hc.ret) fun _ => ?_)
    refine Run.bind (iunlock_spec hc.good (count_head_pos ip [])) ?_
    rintro _ s₃ ⟨hg₃, hf₃, hd₃⟩
    have h₃ := hc.cache hg₃ hf₃ hd₃
    cases hcwd : (s₂.proc p).cwd with
    | none => exact Run.throw (Fault.of (by decide))
    | some c =>
      refine (h₃.moveCwd p c (some ip) (hf₃.proc ▸ hcwd) (fun t ht => ?_) fun t => ?_).mono
        fun _ _ h₄ => h₄
      · cases ht
        rw [hd₃, hf₃.inum ip (count_head_pos ip [])]
        exact (hb.good.live hip hv).2
      · simp only [count_cons, count_nil, Option.some.injEq, beq_iff_eq, Nat.zero_add]

omit h hq

/-! ## `fork` and `exit` -/

theorem fork_spec (h : Call sb m [] into gone s₀ s) (p q' : Pid) :
    Run (Fault q z) (fun _ s' => Call sb m [] into gone s₀ s') (fork p q') s := by
  unfold fork
  refine Run.get_bind ?_
  split
  next c hq' hp =>
    refine Run.bind (P := fun _ s' => Call sb m [] into gone s₀ s' ∧ s'.proc = s.proc) ?_ ?_
    · refine Run.forM (fun _ s' => Call sb m [] into gone s₀ s' ∧ s'.proc = s.proc) ?_ _ ⟨h, rfl⟩
      rintro fd l s₁ ⟨h₁, hp₁⟩
      cases (s.proc p).ofile fd with
      | none => exact Run.pure ⟨h₁, hp₁⟩
      | some f => exact (filedup_spec h₁ f).mono fun _ _ h₂ => ⟨h₂.1, h₂.2.trans hp₁⟩
    · rintro _ s₁ ⟨h₁, hp₁⟩
      have hpos : 0 < s₁.holders c := holders_cwd (p := p) (by rw [hp₁, hp])
      have hpos' : 0 < s₁.holders c + ([] : List ISlot).count c := Nat.add_pos_left hpos _
      refine Run.bind (idup_spec h₁.good hpos') ?_
      rintro u s₂ ⟨rfl, hg, hf, hd⟩
      have h₂ : Call sb m [u] into gone s₀ s₂ := by
        refine h₁.frame hg hf (fun hk => ?_) (by rw [hd]; exact .refl)
        refine hk.frame h₁.good hf hg (fun _ => (nomatch ·)) fun i hi h0 => ?_
        rw [hd] at hi h0
        exact ⟨hi, h0⟩
      refine Run.modify_bind (Run.pure (h₂.setP q' _ (fun t ht => ?_) fun t => ?_))
      · cases ht
        rw [hd, hf.inum u hpos']
        exact h₁.good.held u hpos
      · rw [hf.proc, hp₁, hq']
        simp only [count_cons, count_nil, Option.some.injEq, beq_iff_eq, reduceCtorEq,
          if_false, Nat.zero_add, Nat.add_zero]
  · exact Run.pure h

theorem exit_spec (h : Call sb m [] into gone s₀ s) (p : Pid) :
    Run (Fault q z) (fun _ s' => Call sb m [] into gone s₀ s') (exit p) s := by
  unfold exit
  refine Run.ite (fun _ => Run.throw (Fault.of (by decide))) fun _ => ?_
  refine Run.bind (P := fun _ s' => Call sb m [] into gone s₀ s') ?_ ?_
  · refine Run.forM (fun _ s' => Call sb m [] into gone s₀ s') ?_ _ h
    intro fd l s₁ h₁
    unfold exitClose
    refine Run.get_bind ?_
    cases (s₁.proc p).ofile fd with
    | none => exact Run.pure h₁
    | some f =>
      refine Run.bind (fileclose_spec h₁ f) fun _ s₂ h₂ => ?_
      exact Run.modify (h₂.1.setFd p ((s₂.proc p).setFd fd none) rfl)
  · intro _ s₁ h₁
    refine Run.get_bind ?_
    cases hc : (s₁.proc p).cwd with
    | none => exact Run.throw (Fault.of (by decide))
    | some c =>
      refine Run.modify_bind ((h₁.tx true).moveCwd p c none hc nofun fun t => ?_)
      rfl

/-! ## Every call -/

/-- The directories into which a call puts a new name. -/
def Act.adds (sb : Superblock) (s : State) (p : Pid) : Act → Nat → Prop
  | .openFile path omode => fun d => omode &&& O_CREATE ≠ 0 ∧ Comes sb s p path d
  | .mkdir path | .mknod path _ _ | .link _ path => Comes sb s p path
  | _ => fun _ => False

/-- The entries that a call removes. -/
def Act.removes (sb : Superblock) (s : State) (p : Pid) : Act → Nat → Nat → Prop
  | .unlink path => Goes sb s p path
  | _ => fun _ _ => False

theorem exec_spec (h : Idle sb m s) (hq : q → m.sound) (p : Pid) (a : Act) :
    Run (Fault q (s.disk.Jammed sb)) (fun _ s' => Call sb m [] (a.adds sb s p) (a.removes sb s p) s s')
      (exec sb dev p a) s := by
  have hk := fun hl => (h.ready hl).kept
  have hcwd : ∀ c, (s.proc p).cwd = some c → 0 < s.holders c := fun _ => holders_cwd
  have hc : ∀ {into gone}, Call sb m [] into gone s s := h.quiet.call
  cases a with
  | openFile path omode => exact sysOpen_spec h hq p path omode
  | mkdir path =>
    exact (make_spec h.good h.ready hq p path 0 0 hcwd (by decide)).mono fun _ _ => h.after
  | mknod path major minor =>
    exact (make_spec h.good h.ready hq p path major minor hcwd (by decide)).mono fun _ _ => h.after
  | link old new => exact (sysLink_spec h.good h.ready hq p old new hcwd).mono fun _ _ => h.after
  | unlink path => exact (sysUnlink_spec h.good h.ready hq p path hcwd).mono fun _ _ => h.after
  | chdir path => exact sysChdir_spec h hq p path
  | chmod path mode =>
    exact (chmod_spec h.good hk hq p path hcwd mode).mono fun _ _ => h.after
  | chown path owner =>
    exact (chown_spec h.good hk hq p path hcwd owner).mono fun _ _ => h.after
  | chgrp path group =>
    exact (chgrp_spec h.good hk hq p path hcwd group).mono fun _ _ => h.after
  | exec path reads =>
    exact (execFile_spec h.good hk hq p path hcwd reads).mono fun _ _ => h.after
  | read fd n =>
    refine Run.argfd_bind fun r => ?_
    rcases r with _ | ⟨_, f⟩
    · exact Run.pure hc
    · exact Run.bind (fileread_spec hq h.quiet f n) fun _ _ h₁ => Run.pure h₁.call
  | write fd src =>
    refine Run.argfd_bind fun r => ?_
    rcases r with _ | ⟨_, f⟩
    · exact Run.pure hc
    · exact (filewrite_spec hq h.quiet f src).mono fun _ _ h₁ => h₁.call
  | close fd => exact sysClose_spec hc p fd
  | dup fd => exact sysDup_spec hc p fd
  | fork q' => exact fork_spec hc p q'
  | exit => exact exit_spec hc p

end

end Xv6.Fs
