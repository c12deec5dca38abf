import Xv6.Lib.Tally
import Xv6.Refs.Model

/-!
# Who holds which reference

Every reference is held by somebody.  The references to a file are held by processes;
those to an inode by processes and by open files.  A process in user mode holds what its
table of descriptors and its current directory say; in the middle of a call it holds
more or less (`Res`), and its program is one that gives up only what it holds and ends
with the two in agreement (`Prog.Ok`).  So the counts are right whatever the other
processes do.
-/

namespace Xv6.Refs

open Function List
open Fs (ISlot FSlot Pid NINODE NFILE NOFILE ROOTINO)

/-! ## What a process holds -/

@[ext] structure Res where
  files : FSlot → Nat
  inodes : ISlot → Nat
  /-- files that it has allocated and not yet given a type -/
  fresh : FSlot → Prop
  /-- the process that `fork` is making -/
  child : Option Pid

namespace Res

def addFile (r : Res) (f : FSlot) : Res :=
  { r with files := update r.files f (r.files f + 1) }

def dropFile (r : Res) (f : FSlot) : Res :=
  { r with files := update r.files f (r.files f - 1) }

def addInode (r : Res) (t : ISlot) : Res :=
  { r with inodes := update r.inodes t (r.inodes t + 1) }

def dropInode (r : Res) (t : ISlot) : Res :=
  { r with inodes := update r.inodes t (r.inodes t - 1) }

def setFresh (r : Res) (f : FSlot) (b : Prop) : Res :=
  { r with fresh := update r.fresh f b }

def setChild (r : Res) (q : Option Pid) : Res := { r with child := q }

def plus (r r' : Res) : Res :=
  { r with files := fun f => r.files f + r'.files f, inodes := fun t => r.inodes t + r'.inodes t }

def less (r r' : Res) : Res :=
  { r with files := fun f => r.files f - r'.files f, inodes := fun t => r.inodes t - r'.inodes t }

section
variable (r r' : Res) (f : FSlot) (t u : ISlot)

@[simp] theorem addInode_dropInode : (r.addInode t).dropInode t = r := by
  simp [addInode, dropInode]

@[simp] theorem addInode_dropInode_of : ((r.addInode t).addInode u).dropInode t = r.addInode u := by
  ext v
  · rfl
  · simp only [addInode, dropInode, update_apply]
    grind
  · rfl
  · rfl

/-- A file is allocated and given back. -/
theorem addFile_dropFile (h : ¬ r.fresh f) (b : Prop) :
    (((r.addFile f).setFresh f b).dropFile f).setFresh f False = r := by
  have hf : (False : Prop) = r.fresh f := by simp [h]
  ext g
  · simp [addFile, dropFile, setFresh]
  · rfl
  · simp [addFile, dropFile, setFresh, hf]
  · rfl

theorem addFile_setFresh (h : ¬ r.fresh f) (b : Prop) :
    ((r.addFile f).setFresh f b).setFresh f False = r.addFile f := by
  have hf : (False : Prop) = r.fresh f := by simp [h]
  ext g
  · rfl
  · rfl
  · simp [addFile, setFresh, hf]
  · rfl

theorem setFresh_self {r : Res} {f : FSlot} (h : ¬ r.fresh f) : r.setFresh f False = r := by
  have hf : (False : Prop) = r.fresh f := by simp [h]
  simp [setFresh, hf]

theorem addFile_comm (g : FSlot) : (r.addFile f).addFile g = (r.addFile g).addFile f := by
  ext j
  · simp only [addFile, update_apply]
    grind
  · rfl
  · rfl
  · rfl

/-- The first of two files is given up. -/
theorem addFile_dropFirst (h : ¬ r.fresh f) (g : FSlot) :
    (((r.addFile f).addFile g).dropFile f).setFresh f False = r.addFile g := by
  rw [addFile_comm]
  have := addFile_dropFile (r.addFile g) f h False
  rwa [setFresh_self (r := (r.addFile g).addFile f) h] at this

/-- Two files of which the first is given up before either has a type. -/
theorem fresh_dropFirst {g : FSlot} (h : ¬ r.fresh f) (hg : g ≠ f) :
    (((((r.addFile f).setFresh f True).addFile g).setFresh g True).dropFile f).setFresh f False =
      (r.addFile g).setFresh g True := by
  ext j
  · simp only [addFile, setFresh, dropFile, update_apply]
    grind
  · rfl
  · simp only [addFile, setFresh, dropFile, update_apply]
    grind
  · rfl

theorem fresh_both {g : FSlot} (h : ¬ r.fresh f) (hg : ¬ r.fresh g) (hne : g ≠ f) :
    ((((r.addFile f).setFresh f True).addFile g).setFresh g True |>.setFresh f False).setFresh g False =
      (r.addFile f).addFile g := by
  ext j
  · rfl
  · rfl
  · simp only [addFile, setFresh, update_apply]
    grind
  · rfl

@[simp] theorem plus_less : (r.plus r').less r' = r := by
  simp [plus, less]

end

end Res

/-- What the fields of a process in user mode stand for. -/
def Proc.rest (x : Proc) : Res where
  files f := tally (· = some f) x.ofile
  inodes t := if x.cwd = some t then 1 else 0
  fresh _ := False
  child := none

theorem setFd_self (x : Proc) (fd : Fin NOFILE) (f : Option FSlot) : (x.setFd fd f).ofile fd = f :=
  update_self ..

variable {fd : Fin NOFILE}

theorem setFd_of_ne {x : Proc} {fd' : Fin NOFILE} {f : Option FSlot} (h : fd' ≠ fd) :
    (x.setFd fd f).ofile fd' = x.ofile fd' :=
  update_of_ne h ..

@[simp] theorem rest_fresh (x : Proc) (f : FSlot) : ¬ x.rest.fresh f := id

/-- A descriptor is taken. -/
theorem rest_setFd {x : Proc} (h : x.ofile fd = none) (f : FSlot) :
    (x.setFd fd (some f)).rest = x.rest.addFile f := by
  ext g
  · have hu := tally_update (p := (· = some g)) x.ofile fd (some f)
    simp only [h, reduceCtorEq, if_false, Option.some.injEq] at hu
    simp only [Proc.rest, Proc.setFd, Res.addFile, update_apply, eq_comm (a := g)]
    by_cases hg : f = g
    · subst hg
      simpa using hu
    · simpa [hg] using hu
  · rfl
  · rfl
  · rfl

/-- A descriptor is given up. -/
theorem rest_clearFd {x : Proc} {f : FSlot} (h : x.ofile fd = some f) :
    (x.setFd fd none).rest = x.rest.dropFile f := by
  ext g
  · have hu := tally_update (p := (· = some g)) x.ofile fd none
    simp only [h, reduceCtorEq, if_false, Option.some.injEq] at hu
    simp only [Proc.rest, Proc.setFd, Res.dropFile, update_apply, eq_comm (a := g)]
    by_cases hg : f = g
    · subst hg
      simp only [if_true] at hu ⊢
      omega
    · simpa [hg] using hu
  · rfl
  · rfl
  · rfl

theorem rest_files_pos {x : Proc} {f : FSlot} (h : x.ofile fd = some f) :
    0 < x.rest.files f := tally_pos h

/-- The program can be run by a process that holds `r` and has the fields `x`. -/
def Prog.Ok : Prog → Res → Proc → Prop
  | .done, r, x => r = x.rest ∧ x.cwd ≠ none
  | .gone, r, x => r = x.rest ∧ x = .empty
  | .panic e, _, _ => e = .initExiting ∨ e = .noInodes
  | .filealloc k, r, x => (k none).Ok r x ∧
      ∀ f, r.files f = 0 → (k (some f)).Ok ((r.addFile f).setFresh f True) x
  | .filedup f k, r, x => 0 < r.files f ∧ k.Ok ((r.addFile f).setFresh f False) x
  | .filedrop f k, r, x => 0 < r.files f ∧ (k none).Ok ((r.dropFile f).setFresh f False) x ∧
      ∀ ff : File, (k (some ff)).Ok (if ff.type = .inode
        then ((r.dropFile f).setFresh f False).addInode ff.ip
        else (r.dropFile f).setFresh f False) x
  | .setPipe f k, r, x => r.fresh f ∧ k.Ok (r.setFresh f False) x
  | .setInode f ip k, r, x => r.fresh f ∧ 0 < r.inodes ip ∧
      k.Ok ((r.setFresh f False).dropInode ip) x
  | .iget _ k, r, x => ∀ t, (k t).Ok (r.addInode t) x
  | .idup t k, r, x => 0 < r.inodes t ∧ k.Ok (r.addInode t) x
  | .iput t k, r, x => 0 < r.inodes t ∧ k.Ok (r.dropInode t) x
  | .self k, r, x => (k x).Ok r x
  | .setFd fd f k, r, x => k.Ok r (x.setFd fd f)
  | .setCwd ip k, r, x => k.Ok r { x with cwd := ip }
  | .ask k, r, x => ∀ b, (k b).Ok r x
  | .find k, r, x => ∀ key, (k key).Ok r x
  | .allocproc k, r, x => r.child = none ∧ (k none).Ok r x ∧
      ∀ q, (k (some q)).Ok (r.setChild (some q)) x
  | .freeproc q k, r, x => r.child = some q ∧ k.Ok (r.setChild none) x
  | .ready q y k, r, x => r.child = some q ∧ y.cwd ≠ none ∧
      (∀ f, y.rest.files f ≤ r.files f ∧ (r.fresh f → y.rest.files f = 0)) ∧
      (∀ t, y.rest.inodes t ≤ r.inodes t) ∧ k.Ok ((r.less y.rest).setChild none) x

/-! ## Rules for code -/

namespace Code

/-- With `r` and `x`, the code `m` ends with a value, what it holds and fields that have `Q`. -/
def Wp {α : Type} (m : Code α) (Q : α → Res → Proc → Prop) (r : Res) (x : Proc) : Prop :=
  ∀ k : α → Prog, (∀ a r' x', Q a r' x' → (k a).Ok r' x') → (m k).Ok r x

variable {α β : Type} {m : Code α} {Q Q' : α → Res → Proc → Prop} {r : Res} {x : Proc}

theorem Wp.pure {a : α} (h : Q a r x) : Wp (Pure.pure a) Q r x := fun _ hk => hk a r x h

theorem Wp.bind {f : α → Code β} {P : β → Res → Proc → Prop}
    (h : Wp m (fun a r x => Wp (f a) P r x) r x) : Wp (m >>= f) P r x := fun k hk =>
  h (fun a => f a k) fun a r' x' ha => ha k hk

theorem Wp.mono (h : Wp m Q r x) (hq : ∀ a r x, Q a r x → Q' a r x) : Wp m Q' r x := fun k hk =>
  h k fun a r' x' ha => hk a r' x' (hq a r' x' ha)

theorem Wp.ite {c : Prop} [Decidable c] {m m' : Code α} (ht : c → Wp m Q r x)
    (hf : ¬ c → Wp m' Q r x) : Wp (if c then m else m') Q r x := by
  split
  next h => exact ht h
  next h => exact hf h

section
variable {f : FSlot} {t : ISlot} {q : Pid} {P : Unit → Res → Proc → Prop}

theorem filealloc_wp {Q : Option FSlot → Res → Proc → Prop} (h0 : Q none r x)
    (h1 : ∀ f, r.files f = 0 → Q (some f) ((r.addFile f).setFresh f True) x) :
    Wp filealloc Q r x := fun _ hk => ⟨hk _ _ _ h0, fun f hf => hk _ _ _ (h1 f hf)⟩

theorem filedup_wp (hf : 0 < r.files f) (h : P () ((r.addFile f).setFresh f False) x) :
    Wp (filedup f) P r x := fun _ hk => ⟨hf, hk _ _ _ h⟩

theorem setPipe_wp (hf : r.fresh f) (h : P () (r.setFresh f False) x) :
    Wp (setPipe f) P r x := fun _ hk => ⟨hf, hk _ _ _ h⟩

theorem setInode_wp (hf : r.fresh f) (ht : 0 < r.inodes t)
    (h : P () ((r.setFresh f False).dropInode t) x) : Wp (setInode f t) P r x :=
  fun _ hk => ⟨hf, ht, hk _ _ _ h⟩

theorem iget_wp {Q : ISlot → Res → Proc → Prop} {key : Key} (h : ∀ t, Q t (r.addInode t) x) :
    Wp (iget key) Q r x := fun _ hk t => hk _ _ _ (h t)

theorem idup_wp (ht : 0 < r.inodes t) (h : P () (r.addInode t) x) : Wp (idup t) P r x :=
  fun _ hk => ⟨ht, hk _ _ _ h⟩

theorem iput_wp (ht : 0 < r.inodes t) (h : P () (r.dropInode t) x) : Wp (iput t) P r x :=
  fun _ hk => ⟨ht, hk _ _ _ h⟩

theorem self_wp {Q : Proc → Res → Proc → Prop} (h : Q x r x) : Wp self Q r x :=
  fun _ hk => hk _ _ _ h

theorem setFd_wp {o : Option FSlot} (h : P () r (x.setFd fd o)) :
    Wp (setFd fd o) P r x := fun _ hk => hk _ _ _ h

theorem setCwd_wp {o : Option ISlot} (h : P () r { x with cwd := o }) : Wp (setCwd o) P r x :=
  fun _ hk => hk _ _ _ h

theorem ask_wp {Q : Bool → Res → Proc → Prop} (h : ∀ b, Q b r x) : Wp ask Q r x :=
  fun _ hk b => hk _ _ _ (h b)

theorem find_wp {Q : Option Key → Res → Proc → Prop} (h : ∀ o, Q o r x) : Wp find Q r x :=
  fun _ hk o => hk _ _ _ (h o)

end

end Code

open Code

section
variable {r : Res} {x : Proc} {f : FSlot} {t : ISlot}

/-! ## Files and paths -/

theorem fileclose_wp {P : Unit → Res → Proc → Prop} (h : 0 < r.files f)
    (hp : P () ((r.dropFile f).setFresh f False) x) : Wp (fileclose f) P r x := by
  refine Wp.bind fun k hk => ⟨h, hk none _ _ (Wp.pure hp), fun ff => hk (some ff) _ _ ?_⟩
  dsimp only
  cases ff.type with
  | none => exact Wp.pure hp
  | pipe => exact Wp.pure hp
  | inode =>
    refine iput_wp ?_ ?_
    · simp [Res.addInode]
    · simpa using hp

theorem fdalloc_wp {Q : Option (Fin NOFILE) → Res → Proc → Prop} (h0 : Q none r x)
    (h1 : ∀ fd, x.ofile fd = none → Q (some fd) r (x.setFd fd (some f))) :
    Wp (fdalloc f) Q r x := by
  refine Wp.bind (self_wp ?_)
  split
  · exact Wp.pure h0
  next fd hfd =>
    have hn : x.ofile fd = none := by simpa using find?_some hfd
    exact Wp.bind (setFd_wp (Wp.pure (h1 fd hn)))

/-- The code returns an inode that it holds on top of `r`, or none. -/
def Gives (r : Res) (x : Proc) (o : Option ISlot) (r' : Res) (x' : Proc) : Prop :=
  x' = x ∧ (o = none → r' = r) ∧ ∀ t, o = some t → r' = r.addInode t

theorem Gives.lost : Gives r x none r x := ⟨rfl, fun _ => rfl, nofun⟩

theorem Gives.found : Gives r x (some t) (r.addInode t) x :=
  ⟨rfl, nofun, fun _ h => by cases h; rfl⟩

theorem addInode_pos (r : Res) (t : ISlot) : 0 < (r.addInode t).inodes t := by
  simp [Res.addInode]

/-- An inode is given up and nothing returned. -/
theorem iput_none_wp : Wp (do iput t; pure none) (Gives r x) (r.addInode t) x := by
  refine Wp.bind (iput_wp (addInode_pos r t) ?_)
  rw [Res.addInode_dropInode]
  exact Wp.pure Gives.lost

theorem start_wp (hc : x.cwd ≠ none) (hr : ∀ c, x.cwd = some c → 0 < r.inodes c) (absolute : Bool) :
    Wp (start absolute) (fun t r' x' => r' = r.addInode t ∧ x' = x) r x := by
  refine Wp.ite (fun _ => iget_wp fun t => ⟨rfl, rfl⟩) fun _ => Wp.bind (self_wp ?_)
  split
  next h => exact absurd h hc
  next c h => exact Wp.bind (idup_wp (hr c h) (Wp.pure ⟨rfl, rfl⟩))

theorem namexLoop_wp (parent : Bool) (n : Nat) :
    ∀ t, Wp (namexLoop parent t n) (Gives r x) (r.addInode t) x := by
  induction n with
  | zero => exact fun t => Wp.ite (fun _ => iput_none_wp) fun _ => Wp.pure Gives.found
  | succ n ih =>
    intro t
    refine Wp.bind (ask_wp fun b => Wp.ite (fun _ => iput_none_wp) fun _ => ?_)
    refine Wp.ite (fun _ => Wp.pure Gives.found) fun _ => Wp.bind (find_wp fun o => ?_)
    cases o with
    | none => exact iput_none_wp
    | some key =>
      refine Wp.bind (iget_wp fun u => Wp.bind (iput_wp ?_ ?_))
      · simp only [Res.addInode, update_apply]
        grind
      · rw [Res.addInode_dropInode_of]
        exact ih u

theorem namex_wp (hc : x.cwd ≠ none) (hr : ∀ c, x.cwd = some c → 0 < r.inodes c) (parent : Bool)
    (path : Path) : Wp (namex parent path) (Gives r x) r x := by
  refine Wp.bind ((start_wp hc hr path.absolute).mono ?_)
  rintro t _ _ ⟨rfl, rfl⟩
  exact namexLoop_wp parent path.elems t

theorem create_wp (hc : x.cwd ≠ none) (hr : ∀ c, x.cwd = some c → 0 < r.inodes c) (path : Path) :
    Wp (create path) (Gives r x) r x := by
  refine Wp.bind ((namex_wp hc hr true path).mono ?_)
  rintro o r' x' ⟨rfl, hn, hs⟩
  cases o with
  | none => exact Wp.pure (hn rfl ▸ Gives.lost)
  | some dp =>
    obtain rfl := hs dp rfl
    have hput : ∀ u, 0 < ((r.addInode dp).addInode u).inodes dp := by
      intro u
      simp only [Res.addInode, update_apply]
      grind
    refine Wp.bind (find_wp fun o => ?_)
    cases o with
    | some key =>
      refine Wp.bind (iget_wp fun u => Wp.bind (iput_wp (hput u) ?_))
      rw [Res.addInode_dropInode_of]
      exact Wp.bind (ask_wp fun b => Wp.ite (fun _ => Wp.pure Gives.found) fun _ => iput_none_wp)
    | none =>
      refine Wp.bind (find_wp fun o => ?_)
      cases o with
      | none => exact fun k _ => .inr rfl
      | some key =>
        refine Wp.bind (iget_wp fun u => Wp.bind (iput_wp (hput u) ?_))
        rw [Res.addInode_dropInode_of]
        exact Wp.pure Gives.found

end

/-! ## System calls -/

/-- What holds of a process in user mode. -/
def AtRest (r : Res) (x : Proc) : Prop := r = x.rest ∧ x.cwd ≠ none

section
variable {x : Proc} {f : FSlot} {t : ISlot}

/-- The call leaves the process in user mode. -/
abbrev Returns (m : Code Unit) (r : Res) (x : Proc) : Prop := Wp m (fun _ => AtRest) r x

theorem iput_returns (hc : x.cwd ≠ none) : Returns (iput t) (x.rest.addInode t) x := by
  refine iput_wp (addInode_pos _ t) ?_
  rw [Res.addInode_dropInode]
  exact ⟨rfl, hc⟩

theorem openFile_returns (hc : x.cwd ≠ none) : Returns (openFile t) (x.rest.addInode t) x := by
  refine Wp.bind (filealloc_wp (iput_returns hc) fun f h0 => ?_)
  refine Wp.bind (fdalloc_wp ?_ fun fd hfd => ?_)
  · refine Wp.bind (fileclose_wp ?_ ?_)
    · simp [Res.addFile, Res.setFresh]
    · rw [Res.addFile_dropFile (x.rest.addInode t) f (rest_fresh x f)]
      exact iput_returns hc
  · refine setInode_wp ?_ (addInode_pos x.rest t) ⟨?_, hc⟩
    · simp [Res.setFresh]
    · rw [Res.addFile_setFresh (x.rest.addInode t) f (rest_fresh x f), rest_setFd hfd]
      exact Res.addInode_dropInode (x.rest.addFile f) t

theorem rest_cwd (c : ISlot) (h : x.cwd = some c) : 0 < x.rest.inodes c := by
  simp [Proc.rest, h]

theorem sysOpen_returns (hc : x.cwd ≠ none) (path : Path) (creat : Bool) :
    Returns (sysOpen path creat) x.rest x := by
  refine Wp.ite (fun _ => ?_) fun _ => ?_
  · refine Wp.bind ((create_wp hc rest_cwd path).mono ?_)
    rintro o r' x' ⟨rfl, hn, hs⟩
    cases o with
    | none => exact Wp.pure ⟨hn rfl, hc⟩
    | some ip => exact hs ip rfl ▸ openFile_returns hc
  · refine Wp.bind ((namex_wp hc rest_cwd false path).mono ?_)
    rintro o r' x' ⟨rfl, hn, hs⟩
    cases o with
    | none => exact Wp.pure ⟨hn rfl, hc⟩
    | some ip =>
      obtain rfl := hs ip rfl
      exact Wp.bind (ask_wp fun b => Wp.ite (fun _ => iput_returns hc) fun _ => openFile_returns hc)

theorem sysDup_returns (hc : x.cwd ≠ none) (fd : Fin NOFILE) :
    Returns (sysDup fd) x.rest x := by
  refine Wp.bind (self_wp ?_)
  split
  · exact Wp.pure ⟨rfl, hc⟩
  next f hf =>
    refine Wp.bind (fdalloc_wp (Wp.pure ⟨rfl, hc⟩) fun fd' hfd => ?_)
    refine filedup_wp (rest_files_pos hf) ⟨?_, hc⟩
    rw [rest_setFd hfd]
    exact Res.setFresh_self (rest_fresh x f)

theorem sysClose_returns (hc : x.cwd ≠ none) (fd : Fin NOFILE) :
    Returns (sysClose fd) x.rest x := by
  refine Wp.bind (self_wp ?_)
  split
  · exact Wp.pure ⟨rfl, hc⟩
  next f hf =>
    refine Wp.bind (setFd_wp (fileclose_wp (rest_files_pos hf) ⟨?_, hc⟩))
    rw [rest_clearFd hf]
    exact Res.setFresh_self (rest_fresh x f)

/-- Two files are given up. -/
theorem closeBoth_wp {r : Res} {P : Unit → Res → Proc → Prop} {g : FSlot} (hf : ¬ r.fresh f)
    (hg : ¬ r.fresh g) (h : P () r x) :
    Wp (do fileclose f; fileclose g) P ((r.addFile f).addFile g) x := by
  refine Wp.bind (fileclose_wp ?_ (fileclose_wp ?_ ?_))
  · simp only [Res.addFile, update_apply]
    grind
  · rw [Res.addFile_dropFirst r f hf]
    simp [Res.addFile]
  · have := Res.addFile_dropFile r g hg False
    rw [Res.setFresh_self (r := r.addFile g) hg] at this
    rw [Res.addFile_dropFirst r f hf, this]
    exact h

theorem pipealloc_wp {r : Res} {Q : Option (FSlot × FSlot) → Res → Proc → Prop}
    (hfr : ∀ f, ¬ r.fresh f) (h0 : Q none r x)
    (h1 : ∀ f g, Q (some (f, g)) ((r.addFile f).addFile g) x) : Wp pipealloc Q r x := by
  refine Wp.bind (filealloc_wp (Wp.pure h0) fun f hf => ?_)
  refine Wp.bind (filealloc_wp ?_ fun g hg => ?_)
  · refine Wp.bind (fileclose_wp ?_ ?_)
    · simp [Res.addFile, Res.setFresh]
    · rw [Res.addFile_dropFile r f (hfr f)]
      exact Wp.pure h0
  have hne : g ≠ f := by
    rintro rfl
    simp [Res.addFile, Res.setFresh] at hg
  refine Wp.bind (ask_wp fun b => Wp.ite (fun _ => ?_) fun _ => ?_)
  · refine Wp.bind (fileclose_wp ?_ (Wp.bind (fileclose_wp ?_ (Wp.pure ?_))))
    · simp only [Res.addFile, Res.setFresh, update_apply]
      grind
    · rw [Res.fresh_dropFirst r f (hfr f) hne]
      simp [Res.addFile, Res.setFresh]
    · rw [Res.fresh_dropFirst r f (hfr f) hne, Res.addFile_dropFile r g (hfr g)]
      exact h0
  · refine Wp.bind (setPipe_wp ?_ (Wp.bind (setPipe_wp ?_ (Wp.pure ?_))))
    · simp [Res.setFresh, Res.addFile, hne.symm]
    · simp [Res.setFresh, hne]
    · rw [Res.fresh_both r f (hfr f) (hfr g) hne]
      exact h1 f g

theorem sysPipe_returns (hc : x.cwd ≠ none) : Returns sysPipe x.rest x := by
  refine Wp.bind (pipealloc_wp (rest_fresh x) (Wp.pure ⟨rfl, hc⟩) fun f g => ?_)
  have hclose : Returns (do fileclose f; fileclose g) ((x.rest.addFile f).addFile g) x :=
    closeBoth_wp (rest_fresh x f) (rest_fresh x g) ⟨rfl, hc⟩
  refine Wp.bind (fdalloc_wp hclose fun fd hfd => Wp.bind (fdalloc_wp ?_ fun fd' hfd' => ?_))
  · have hx : (x.setFd fd (some f)).setFd fd none = x := by
      rw [Proc.setFd, Proc.setFd, update_idem, ← hfd, update_eq_self]
    exact Wp.bind (setFd_wp (hx.symm ▸ hclose))
  · refine Wp.pure ⟨?_, hc⟩
    rw [rest_setFd hfd', rest_setFd hfd]

/-- The references that the new process is to have are held on top of `r`. -/
theorem forkLoop_wp {r : Res} {Q : Proc → Res → Proc → Prop} (hfr : ∀ f, ¬ r.fresh f)
    (hpos : ∀ fd f, x.ofile fd = some f → 0 < r.files f)
    (hq : ∀ y, y.cwd = none → Q y (r.plus y.rest) x) (l : List (Fin NOFILE)) (hnd : l.Nodup) :
    ∀ y : Proc, y.cwd = none → (∀ fd ∈ l, y.ofile fd = none) →
      Wp (forkLoop x y l) Q (r.plus y.rest) x := by
  induction l with
  | nil => exact fun y hy _ => Wp.pure (hq y hy)
  | cons fd l ih =>
    intro y hy hl
    obtain ⟨hfd, hnd⟩ := nodup_cons.mp hnd
    have hrest : ∀ fd' ∈ l, y.ofile fd' = none := fun fd' h => hl fd' (mem_cons_of_mem _ h)
    unfold forkLoop
    split
    · exact ih hnd y hy hrest
    next f hf =>
      refine Wp.bind (filedup_wp (Nat.add_pos_left (hpos fd f hf) _) ?_)
      have he : ((r.plus y.rest).addFile f).setFresh f False =
          r.plus (y.setFd fd (some f)).rest := by
        rw [Res.setFresh_self (r := (r.plus y.rest).addFile f) (hfr f),
          rest_setFd (hl fd (mem_cons_self ..))]
        ext g
        · simp only [Res.plus, Res.addFile, update_apply]
          grind
        · rfl
        · rfl
        · rfl
      rw [he]
      refine ih hnd _ hy fun fd' h => ?_
      have hne : fd' ≠ fd := fun h0 => hfd (h0 ▸ h)
      rw [setFd_of_ne hne]
      exact hrest fd' h

theorem rest_empty : Proc.empty.rest = ⟨fun _ => 0, fun _ => 0, fun _ => False, none⟩ := by
  ext f
  · exact tally_eq_zero fun _ h => nomatch h
  · rfl
  · rfl
  · rfl

theorem rest_withCwd {y : Proc} (hy : y.cwd = none) (c : ISlot) :
    ({ y with cwd := some c } : Proc).rest = y.rest.addInode c := by
  ext t
  · rfl
  · simp only [Proc.rest, hy, Res.addInode, update_apply, reduceCtorEq, if_false,
      Option.some.injEq, eq_comm (a := c)]
  · rfl
  · rfl

theorem fork_returns (hc : x.cwd ≠ none) : Returns fork x.rest x := by
  refine Wp.bind fun k hk => ⟨rfl, hk none _ _ (Wp.pure ⟨rfl, hc⟩), fun q => hk (some q) _ _ ?_⟩
  refine Wp.bind (ask_wp fun b => Wp.ite (fun _ => ?_) fun _ => ?_)
  · exact fun k hk => ⟨rfl, hk _ _ _ ⟨rfl, hc⟩⟩
  refine Wp.bind (self_wp (Wp.bind ?_))
  have h0 : x.rest.setChild (some q) = (x.rest.setChild (some q)).plus Proc.empty.rest := by
    rw [rest_empty]
    rfl
  rw [h0]
  refine forkLoop_wp (r := x.rest.setChild (some q)) (rest_fresh x)
    (fun fd f => rest_files_pos) (fun y hy => ?_) _
    (nodup_finRange _) .empty rfl fun _ _ => rfl
  split
  next h => exact absurd h hc
  next c h =>
    refine Wp.bind (idup_wp (Nat.add_pos_left (rest_cwd c h) _) fun k hk => ?_)
    have he : ((x.rest.setChild (some q)).plus y.rest).addInode c =
        (x.rest.setChild (some q)).plus ({ y with cwd := some c } : Proc).rest := by
      rw [rest_withCwd hy]
      ext t
      · rfl
      · simp only [Res.plus, Res.addInode, update_apply]
        grind
      · rfl
      · rfl
    rw [he]
    refine ⟨rfl, nofun, fun f => ⟨Nat.le_add_left .., fun hf => hf.elim⟩, fun t => Nat.le_add_left ..,
      hk _ _ _ ⟨?_, hc⟩⟩
    rw [Res.plus_less]
    rfl

/-- The current directory is replaced. -/
theorem rest_setCwd {c : ISlot} (h : x.cwd = some c) :
    (x.rest.addInode t).dropInode c = ({ x with cwd := some t } : Proc).rest := by
  ext u
  · rfl
  · simp only [Proc.rest, h, Res.addInode, Res.dropInode, update_apply,
      Option.some.injEq]
    grind
  · rfl
  · rfl

theorem sysChdir_returns (hc : x.cwd ≠ none) (path : Path) :
    Returns (sysChdir path) x.rest x := by
  refine Wp.bind ((namex_wp hc rest_cwd false path).mono ?_)
  rintro o r' x' ⟨rfl, hn, hs⟩
  cases o with
  | none => exact Wp.pure ⟨hn rfl, hc⟩
  | some ip =>
    obtain rfl := hs ip rfl
    refine Wp.bind (ask_wp fun b => Wp.ite (fun _ => iput_returns hc) fun _ => ?_)
    refine Wp.bind (self_wp ?_)
    split
    next h => exact absurd h hc
    next c h =>
      refine Wp.bind (iput_wp ?_ (setCwd_wp ⟨rest_setCwd h, nofun⟩))
      have := rest_cwd c h
      simp only [Res.addInode, update_apply]
      grind

theorem exec_returns (hc : x.cwd ≠ none) (path : Path) : Returns (exec path) x.rest x := by
  refine Wp.bind ((namex_wp hc rest_cwd false path).mono ?_)
  rintro o r' x' ⟨rfl, hn, hs⟩
  cases o with
  | none => exact Wp.pure ⟨hn rfl, hc⟩
  | some ip => exact hs ip rfl ▸ iput_returns hc

/-- The descriptors of the list are closed. -/
theorem exitLoop_wp {Q : Unit → Res → Proc → Prop} (l : List (Fin NOFILE)) :
    ∀ x : Proc, (∀ y : Proc, y.cwd = x.cwd → (∀ fd, fd ∈ l ∨ x.ofile fd = none → y.ofile fd = none) →
      Q () y.rest y) → Wp (exitLoop l) Q x.rest x := by
  induction l with
  | nil => exact fun x hq => Wp.pure (hq x rfl fun fd h => h.resolve_left nofun)
  | cons fd l ih =>
    intro x hq
    refine Wp.bind (self_wp ?_)
    split
    next hfd =>
      refine ih x fun y hy hall => hq y hy fun fd' h => hall fd' ?_
      rcases h with h | h
      · rcases mem_cons.mp h with rfl | h
        · exact .inr hfd
        · exact .inl h
      · exact .inr h
    next f hf =>
      refine Wp.bind (fileclose_wp (rest_files_pos hf) (Wp.bind (setFd_wp ?_)))
      rw [Res.setFresh_self (r := x.rest.dropFile f) (rest_fresh x f), ← rest_clearFd hf]
      refine ih _ fun y hy hall => hq y hy fun fd' h => hall fd' ?_
      by_cases he : fd' = fd
      · rw [he, setFd_self]
        exact .inr rfl
      · rw [setFd_of_ne he]
        exact h.imp_left fun h => (mem_cons.mp h).resolve_left he

/-- `exit` leaves nothing. -/
theorem exit_wp (hc : x.cwd ≠ none) (p : Pid) :
    Wp (exit p) (fun _ r x => r = x.rest ∧ x = .empty) x.rest x := by
  refine Wp.ite (fun _ => fun k _ => .inl rfl) fun _ => Wp.bind (exitLoop_wp _ x fun y hy hall => ?_)
  refine Wp.bind (self_wp ?_)
  split
  next h => exact absurd (hy.symm.trans h) hc
  next c h =>
    have hof : y.ofile = fun _ => none := funext fun fd => hall fd (.inl (mem_finRange fd))
    refine Wp.bind (iput_wp (rest_cwd c h) (setCwd_wp ⟨?_, by rw [hof]; rfl⟩))
    ext u
    · rfl
    · simp only [Proc.rest, h, Res.dropInode, update_apply, Option.some.injEq,
        reduceCtorEq, if_false]
      grind
    · rfl
    · rfl

/-- Every call can be made by a process in user mode. -/
theorem Call.prog_ok (hc : x.cwd ≠ none) (p : Pid) (c : Call) : (c.prog p).Ok x.rest x := by
  cases c with
  | sysOpen path creat => exact sysOpen_returns hc path creat _ fun _ _ _ h => h
  | dup fd => exact sysDup_returns hc fd _ fun _ _ _ h => h
  | close fd => exact sysClose_returns hc fd _ fun _ _ _ h => h
  | pipe => exact sysPipe_returns hc _ fun _ _ _ h => h
  | fork => exact fork_returns hc _ fun _ _ _ h => h
  | chdir path => exact sysChdir_returns hc path _ fun _ _ _ h => h
  | exec path => exact exec_returns hc path _ fun _ _ _ h => h
  | exit => exact exit_wp hc p _ fun _ _ _ h => h

end

end Xv6.Refs
