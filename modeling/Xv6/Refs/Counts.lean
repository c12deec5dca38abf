import Xv6.Refs.Tokens

/-!
# Reference counts are exact

`Tables` says that the counts are the sums of what is held, `Procs` that every process
has a program that agrees with what it holds.  Each step keeps both, so they hold in
every interleaving; between system calls what is held is what the fields say.
-/

namespace Xv6.Refs

open Function
open Fs (ISlot FSlot Pid NINODE NFILE NOFILE ROOTINO)

variable {q : Pid} {c' : Prog}

/-- The file table and the inode cache, with `R p` held by process `p`. -/
structure Tables (ft : FSlot → File) (ic : ISlot → Inode) (R : Pid → Res) : Prop where
  file : ∀ f, (ft f).ref = total (·.files f) R
  inode : ∀ t, (ic t).ref =
    tally (fun x : File => x.type = .inode ∧ x.ip = t) ft + total (·.inodes t) R
  empty : ∀ f, (ft f).ref = 0 → (ft f).type = .none
  fresh : ∀ p f, (R p).fresh f → (ft f).type = .none ∧ (ft f).ref = 1 ∧ (R p).files f = 1
  uniq : ∀ t u, 0 < (ic t).ref → 0 < (ic u).ref → (ic t).key = (ic u).key → t = u

/-- The processes: those that are not running hold nothing, those in user mode what their fields
say, and the others have a program that agrees with what they hold. -/
structure Procs (s : State) (R : Pid → Res) : Prop where
  dead : ∀ p, s.status p ≠ .live → s.proc p = .empty ∧ s.code p = none
  idle : ∀ p, s.code p = none → R p = (s.proc p).rest ∧ (s.status p = .live → (s.proc p).cwd ≠ none)
  busy : ∀ p c, s.code p = some c → c.Ok (R p) (s.proc p)
  child : ∀ p q, (R p).child = some q → s.status q = .embryo
  own : ∀ p p' q, (R p).child = some q → (R p').child = some q → p = p'

variable {ft : FSlot → File} {ic : ISlot → Inode} {R : Pid → Res} {p : Pid} {f : FSlot} {t : ISlot}
  {s s' : State}

namespace Tables

section
variable (h : Tables ft ic R)
include h

/-- Who holds a file is seen in its count. -/
theorem ref_pos (hf : 0 < (R p).files f) : 0 < (ft f).ref := by
  have := le_total (·.files f) R p
  rw [h.file]
  omega

/-- A file that one process holds alone. -/
theorem alone (hq : q ≠ p) (hf : 0 < (R p).files f) (h1 : (ft f).ref ≤ 1) : (R q).files f = 0 := by
  have := add_le_total (·.files f) R hq
  rw [h.file] at h1
  omega

theorem not_fresh (hq : q ≠ p) (hf : 0 < (R p).files f) : ¬ (R q).fresh f := by
  intro hfr
  obtain ⟨_, h1, hone⟩ := h.fresh q f hfr
  have h0 := h.alone (f := f) (Ne.symm hq) (by rw [hone]; exact Nat.one_pos) h1.le
  omega

/-- What a process holds of the files changes, in `f` alone, as the count of `f` does. -/
theorem setFile {x : File} {r : Res} (hfile : ∀ g, g ≠ f → r.files g = (R p).files g)
    (hinode : ∀ t, r.inodes t + (if x.type = .inode ∧ x.ip = t then 1 else 0) =
      (R p).inodes t + if (ft f).type = .inode ∧ (ft f).ip = t then 1 else 0)
    (hfresh : ∀ g, g ≠ f → r.fresh g → (R p).fresh g)
    (href : x.ref + (R p).files f = (ft f).ref + r.files f)
    (hother : ∀ q, q ≠ p → ¬ (R q).fresh f) (hempty : x.ref = 0 → x.type = .none)
    (hself : r.fresh f → x.type = .none ∧ x.ref = 1 ∧ r.files f = 1) :
    Tables (update ft f x) ic (update R p r) := by
  refine ⟨fun g => ?_, fun t => ?_, fun g h0 => ?_, fun q g hg => ?_, h.uniq⟩
  · have hu := total_update (·.files g) R p r
    have hg := h.file g
    by_cases he : g = f
    · subst he
      rw [update_self]
      omega
    · rw [update_of_ne he]
      have := hfile g he
      omega
  · have hu := total_update (·.inodes t) R p r
    have ht := tally_update (p := fun x : File => x.type = .inode ∧ x.ip = t) ft f x
    have := hinode t
    have := h.inode t
    omega
  · by_cases he : g = f
    · subst he
      rw [update_self] at h0 ⊢
      exact hempty h0
    · rw [update_of_ne he] at h0 ⊢
      exact h.empty g h0
  · by_cases hq : q = p
    · subst hq
      rw [update_self] at hg ⊢
      by_cases he : g = f
      · subst he
        rw [update_self]
        exact hself hg
      · rw [update_of_ne he, hfile g he]
        exact h.fresh q g (hfresh g he hg)
    · rw [update_of_ne hq] at hg ⊢
      have he : g ≠ f := by
        rintro rfl
        exact hother q hq hg
      rw [update_of_ne he]
      exact h.fresh q g hg

/-- What a process holds of the inodes changes, in `t` alone, as the count of `t` does. -/
theorem setI {x : Inode} {r : Res} (hfile : r.files = (R p).files) (hfresh : r.fresh = (R p).fresh)
    (hinode : ∀ u, u ≠ t → r.inodes u = (R p).inodes u)
    (href : x.ref + (R p).inodes t = (ic t).ref + r.inodes t)
    (huniq : 0 < x.ref → ∀ u, u ≠ t → 0 < (ic u).ref → (ic u).key ≠ x.key) :
    Tables ft (update ic t x) (update R p r) := by
  refine ⟨fun g => ?_, fun u => ?_, h.empty, fun q g hg => ?_, fun u v hu hv hk => ?_⟩
  · have hu := total_update (·.files g) R p r
    have := h.file g
    simp only [hfile] at hu
    omega
  · have hu := total_update (·.inodes u) R p r
    have hi := h.inode u
    by_cases he : u = t
    · subst he
      rw [update_self]
      omega
    · rw [update_of_ne he]
      have := hinode u he
      omega
  · by_cases hq : q = p
    · subst hq
      rw [update_self] at hg ⊢
      rw [hfile]
      exact h.fresh q g (hfresh ▸ hg)
    · rw [update_of_ne hq] at hg ⊢
      exact h.fresh q g hg
  · by_cases heu : u = t <;> by_cases hev : v = t
    · rw [heu, hev]
    · subst heu
      rw [update_self] at hu hk
      rw [update_of_ne hev] at hv hk
      exact absurd hk.symm (huniq hu v hev hv)
    · subst hev
      rw [update_self] at hv hk
      rw [update_of_ne heu] at hu hk
      exact absurd hk (huniq hv u heu hu)
    · rw [update_of_ne heu] at hu hk
      rw [update_of_ne hev] at hv hk
      exact h.uniq u v hu hv hk

/-- The same is held, by one process more or by another. -/
theorem congr {R' : Pid → Res} (hf : ∀ f, total (·.files f) R' = total (·.files f) R)
    (hi : ∀ t, total (·.inodes t) R' = total (·.inodes t) R)
    (hfresh : ∀ p f, (R' p).fresh f → (R p).fresh f ∧ (R' p).files f = (R p).files f) :
    Tables ft ic R' where
  file f := by rw [hf, h.file]
  inode t := by rw [hi, h.inode]
  empty := h.empty
  fresh p f hpf := by
    obtain ⟨h1, h2⟩ := hfresh p f hpf
    rw [h2]
    exact h.fresh p f h1
  uniq := h.uniq

end

end Tables

variable {st : Status}

namespace Procs

variable {c : Prog}

/-- Only processes that run make system calls. -/
theorem live (h : Procs s R) (hc : s.code p = some c) : s.status p = .live := by
  by_contra hne
  rw [(h.dead p hne).2] at hc
  cases hc

/-- Only process `p` changes. -/
theorem change (h : Procs s R) {x : Proc} {st : Status} {o : Option Prog} {r : Res}
    (hproc : s'.proc = update s.proc p x) (hstatus : s'.status = update s.status p st)
    (hcode : s'.code = update s.code p o) (hdead : st ≠ .live → x = .empty ∧ o = none)
    (hidle : o = none → r = x.rest ∧ (st = .live → x.cwd ≠ none)) (hbusy : ∀ c, o = some c → c.Ok r x)
    (hchild : r.child = (R p).child) (hembryo : s.status p ≠ .embryo) :
    Procs s' (update R p r) := by
  have hch : ∀ q, (update R p r q).child = (R q).child := by
    intro q
    by_cases hq : q = p
    · rw [hq, update_self, hchild]
    · rw [update_of_ne hq]
  refine ⟨fun q => ?_, fun q => ?_, fun q c => ?_, fun q q' hqq => ?_, fun q q' u h1 h2 => ?_⟩
  · rw [hproc, hstatus, hcode]
    by_cases hq : q = p
    · rw [hq, update_self, update_self, update_self]
      exact hdead
    · rw [update_of_ne hq, update_of_ne hq, update_of_ne hq]
      exact h.dead q
  · rw [hproc, hstatus, hcode]
    by_cases hq : q = p
    · rw [hq, update_self, update_self, update_self, update_self]
      exact hidle
    · rw [update_of_ne hq, update_of_ne hq, update_of_ne hq, update_of_ne hq]
      exact h.idle q
  · rw [hproc, hcode]
    by_cases hq : q = p
    · rw [hq, update_self, update_self, update_self]
      exact hbusy c
    · rw [update_of_ne hq, update_of_ne hq, update_of_ne hq]
      exact h.busy q c
  · rw [hch] at hqq
    have he := h.child q q' hqq
    have hne : q' ≠ p := fun hq => hembryo (hq ▸ he)
    rw [hstatus, update_of_ne hne, he]
  · rw [hch] at h1 h2
    exact h.own q q' u h1 h2

/-- Process `p` takes a step in its system call. -/
theorem resume (h : Procs s R) (s' : State) {x : Proc} {c : Prog} {r : Res} (hc : s.code p = some c)
    (hproc : s'.proc = update s.proc p x) (hstatus : s'.status = s.status)
    (hcode : s'.code = update s.code p (some c')) (hok : c'.Ok r x)
    (hchild : r.child = (R p).child) : Procs s' (update R p r) := by
  have hlive := h.live hc
  refine h.change hproc (hstatus.trans (update_eq_self p s.status).symm) hcode
    (fun hd => absurd hlive hd) nofun (fun c hc => ?_) hchild (by rw [hlive]; nofun)
  cases hc
  exact hok

/-- Process `p` returns to user mode, or is gone. -/
theorem finish (h : Procs s R) {c : Prog} {st : Status} (hc : s.code p = some c)
    (hproc : s'.proc = s.proc) (hstatus : s'.status = update s.status p st)
    (hcode : s'.code = update s.code p none) (hrest : R p = (s.proc p).rest)
    (hst : st = .live ∧ (s.proc p).cwd ≠ none ∨ st = .zombie ∧ s.proc p = .empty) :
    Procs s' R := by
  have := h.change (r := R p) (hproc.trans (update_eq_self p s.proc).symm) hstatus hcode
    (fun hd => ⟨(hst.resolve_left fun h => hd h.1).2, rfl⟩) (fun _ => ⟨hrest, fun hl => ?_⟩) nofun rfl
    (by rw [h.live hc]; nofun)
  · rwa [update_eq_self] at this
  · refine (hst.resolve_right fun h => ?_).2
    rw [h.1] at hl
    cases hl

/-- Process `p` does something to a process `q` that is not running: takes it for a child, frees it
again, or lets it run with the fields `y`. -/
theorem fork (h : Procs s R) {y : Proc} {r : Res} (hc : s.code p = some c)
    (hq : s.status q ≠ .live) (hproc : s'.proc = update s.proc q y)
    (hstatus : s'.status = update s.status q st)
    (hcode : s'.code = update s.code p (some c'))
    (hno : ∀ p', p' ≠ p → (R p').child ≠ some q)
    (hst : st = .live ∧ y.cwd ≠ none ∨ st ≠ .live ∧ y = .empty)
    (hchild : r.child = none ∨ r.child = some q ∧ st = .embryo) (hok : c'.Ok r (s.proc p)) :
    Procs s' (update (update R q y.rest) p r) := by
  have hpq : p ≠ q := by
    rintro rfl
    exact hq (h.live hc)
  have hidle := (h.dead q hq).2
  have hcodeq : s'.code q = none := by rw [hcode, update_of_ne hpq.symm, hidle]
  have hch : ∀ p' u, (update (update R q y.rest) p r p').child = some u →
      p' = p ∧ u = q ∧ st = .embryo ∨ p' ≠ p ∧ u ≠ q ∧ (R p').child = some u := by
    intro p' u hu
    by_cases hp : p' = p
    · rw [hp, update_self] at hu
      rcases hchild with h0 | ⟨h1, h2⟩
      · rw [h0] at hu
        cases hu
      · rw [h1] at hu
        cases hu
        exact .inl ⟨hp, rfl, h2⟩
    · rw [update_of_ne hp] at hu
      by_cases hp' : p' = q
      · rw [hp', update_self] at hu
        cases hu
      · rw [update_of_ne hp'] at hu
        exact .inr ⟨hp, fun hc => hno p' hp (hc ▸ hu), hu⟩
  refine ⟨fun u hu => ?_, fun u hu => ?_, fun u c hu => ?_, fun u u' hu => ?_, fun u u' v h1 h2 => ?_⟩
  · by_cases huq : u = q
    · subst huq
      rw [hstatus, update_self] at hu
      rw [hproc, update_self, hcodeq]
      exact ⟨(hst.resolve_left fun h => hu h.1).2, rfl⟩
    · rw [hstatus, update_of_ne huq] at hu
      have hup : u ≠ p := by
        rintro rfl
        exact hu (h.live hc)
      rw [hproc, hcode, update_of_ne huq, update_of_ne hup]
      exact h.dead u hu
  · have hup : u ≠ p := by
      rintro rfl
      rw [hcode, update_self] at hu
      cases hu
    rw [hcode, update_of_ne hup] at hu
    rw [hproc, hstatus, update_of_ne hup]
    by_cases huq : u = q
    · subst huq
      rw [update_self, update_self, update_self]
      exact ⟨rfl, fun hl => (hst.resolve_right fun h => h.1 hl).2⟩
    · rw [update_of_ne huq, update_of_ne huq, update_of_ne huq]
      exact h.idle u hu
  · have huq : u ≠ q := by
      rintro rfl
      rw [hcodeq] at hu
      cases hu
    rw [hproc, update_of_ne huq]
    by_cases hup : u = p
    · subst hup
      rw [hcode, update_self] at hu
      cases hu
      rw [update_self]
      exact hok
    · rw [hcode, update_of_ne hup] at hu
      rw [update_of_ne hup, update_of_ne huq]
      exact h.busy u c hu
  · rw [hstatus]
    rcases hch u u' hu with ⟨-, rfl, rfl⟩ | ⟨-, hne, hR⟩
    · rw [update_self]
    · rw [update_of_ne hne]
      exact h.child u u' hR
  · rcases hch u v h1 with ⟨rfl, rfl, -⟩ | ⟨-, hv, hR⟩
    · rcases hch u' v h2 with ⟨rfl, -, -⟩ | ⟨-, hv, -⟩
      · rfl
      · exact absurd rfl hv
    · rcases hch u' v h2 with ⟨-, hv', -⟩ | ⟨-, -, hR'⟩
      · exact absurd hv' hv
      · exact h.own u u' v hR hR'

end Procs

/-- The invariant of all interleavings. -/
structure Inv (s : State) (R : Pid → Res) : Prop where
  tables : Tables s.ft s.ic R
  procs : Procs s R

/-! ## Steps -/

/-- The panics that are out of reach. -/
def Safe (e : Panic) : Prop := e ≠ .filedup ∧ e ≠ .fileclose ∧ e ≠ .fault

section
variable {c : Prog} {r : Res}

/-- A step that leaves the tables and what is held. -/
theorem Inv.quiet (h : Inv s R) (hc : s.code p = some c) {x : Proc} (hok : c'.Ok (R p) x) :
    ∃ R', Inv ((s.setProc p x).resume p (some c')) R' := by
  refine ⟨R, h.tables, ?_⟩
  have := h.procs.resume ((s.setProc p x).resume p (some c')) hc rfl rfl rfl hok rfl
  rwa [update_eq_self] at this

theorem Inv.same (h : Inv s R) (hc : s.code p = some c) (hok : c'.Ok (R p) (s.proc p)) :
    ∃ R', Inv (s.resume p (some c')) R' := by
  have := h.quiet hc hok
  rwa [State.setProc, update_eq_self] at this

/-- A step that changes the tables and what `p` holds. -/
theorem Inv.tables_step (h : Inv s R) (s' : State) (hc : s.code p = some c)
    (hok : c'.Ok r (s.proc p)) (hchild : r.child = (R p).child) (hproc : s'.proc = s.proc)
    (hstatus : s'.status = s.status) (hcode : s'.code = s.code)
    (ht : Tables s'.ft s'.ic (update R p r)) : ∃ R', Inv (s'.resume p (some c')) R' := by
  refine ⟨update R p r, ht, ?_⟩
  refine h.procs.resume _ hc ?_ hstatus ?_ hok hchild
  · rw [update_eq_self]
    exact hproc
  · rw [← hcode]
    rfl

theorem filealloc_step (h : Inv s R) (a : Answer) {k : Option FSlot → Prog}
    (hc : s.code p = some (.filealloc k)) :
    Post Safe (fun s' => ∃ R', Inv s' R') (Prog.step a p s (.filealloc k)) := by
  obtain ⟨h0, h1⟩ := h.procs.busy p _ hc
  rw [Prog.step]
  split
  · exact h.same hc h0
  next f hf =>
    have href : (s.ft f).ref = 0 := by simpa using List.find?_some hf
    have hty := h.tables.empty f href
    have hnone : ∀ q, (R q).files f = 0 := by
      intro q
      have := le_total (·.files f) R q
      rw [← h.tables.file, href] at this
      exact Nat.le_zero.mp this
    refine h.tables_step (s.setFile f _) hc (h1 f (hnone p)) rfl rfl rfl rfl
      (h.tables.setFile (fun g hg => ?_) (fun t => ?_) (fun g hg hfr => ?_) ?_
        (fun q _ hfr => ?_) nofun fun _ => ?_)
    · simp [Res.addFile, Res.setFresh, hg]
    · simp [Res.addFile, Res.setFresh, hty]
    · simpa [Res.addFile, Res.setFresh, hg] using hfr
    · simp [Res.addFile, Res.setFresh, href]
      omega
    · have := (h.tables.fresh q f hfr).2.1
      omega
    · exact ⟨hty, rfl, by simp [Res.addFile, Res.setFresh, hnone p]⟩

variable {k : Prog}

theorem filedup_step (h : Inv s R) (a : Answer) (hc : s.code p = some (.filedup f k)) :
    Post Safe (fun s' => ∃ R', Inv s' R') (Prog.step a p s (.filedup f k)) := by
  obtain ⟨h0, h1⟩ := h.procs.busy p _ hc
  have hpos := h.tables.ref_pos h0
  rw [Prog.step]
  rw [if_neg (by omega)]
  refine h.tables_step (s.setFile f _) hc h1 rfl rfl rfl rfl
    (h.tables.setFile (fun g hg => ?_) (fun t => ?_) (fun g hg hfr => ?_) ?_
      (fun q hq => h.tables.not_fresh hq h0) nofun fun hfr => ?_)
  · simp [Res.addFile, Res.setFresh, hg]
  · simp [Res.addFile, Res.setFresh]
  · simpa [Res.addFile, Res.setFresh, hg] using hfr
  · simp [Res.addFile, Res.setFresh]
    omega
  · simp [Res.setFresh] at hfr

theorem filedrop_step (h : Inv s R) (a : Answer) {k : Option File → Prog}
    (hc : s.code p = some (.filedrop f k)) :
    Post Safe (fun s' => ∃ R', Inv s' R') (Prog.step a p s (.filedrop f k)) := by
  obtain ⟨h0, h1, h2⟩ := h.procs.busy p _ hc
  have hpos := h.tables.ref_pos h0
  rw [Prog.step]
  rw [if_neg (by omega)]
  split
  next hlt =>
    refine h.tables_step (s.setFile f _) hc h1 rfl rfl rfl rfl
      (h.tables.setFile (fun g hg => ?_) (fun t => ?_) (fun g hg hfr => ?_) ?_
        (fun q hq => h.tables.not_fresh hq h0) (fun he => ?_) fun hfr => ?_)
    · simp [Res.dropFile, Res.setFresh, hg]
    · simp [Res.dropFile, Res.setFresh]
    · simpa [Res.dropFile, Res.setFresh, hg] using hfr
    · simp [Res.dropFile, Res.setFresh]
      omega
    · simp only at he
      omega
    · simp [Res.setFresh] at hfr
  next hlt =>
    have hle := le_total (·.files f) R p
    rw [← h.tables.file] at hle
    refine h.tables_step (s.setFile f _) hc (h2 (s.ft f)) ?_ rfl rfl rfl
      (h.tables.setFile (fun g hg => ?_) (fun t => ?_) (fun g hg hfr => ?_) ?_
        (fun q hq => h.tables.not_fresh hq h0) (fun _ => rfl) fun hfr => ?_)
    · split <;> rfl
    · split <;> simp [Res.addInode, Res.dropFile, Res.setFresh, hg]
    · split
      next hty =>
        simp [Res.addInode, Res.dropFile, Res.setFresh, hty, update_apply]
        grind
      next hty => simp [Res.dropFile, Res.setFresh, hty]
    · split at hfr <;> simpa [Res.addInode, Res.dropFile, Res.setFresh, hg] using hfr
    · split <;> simp [Res.addInode, Res.dropFile, Res.setFresh] <;> omega
    · split at hfr <;> simp [Res.addInode, Res.setFresh] at hfr

theorem setPipe_step (h : Inv s R) (a : Answer) (hc : s.code p = some (.setPipe f k)) :
    Post Safe (fun s' => ∃ R', Inv s' R') (Prog.step a p s (.setPipe f k)) := by
  obtain ⟨h0, h1⟩ := h.procs.busy p _ hc
  obtain ⟨hty, href, hone⟩ := h.tables.fresh p f h0
  refine h.tables_step (s.setFile f _) hc h1 rfl rfl rfl rfl
    (h.tables.setFile (fun g _ => rfl) (fun t => ?_) (fun g hg hfr => ?_) rfl
      (fun q hq => h.tables.not_fresh hq (by omega)) (fun he => ?_) fun hfr => ?_)
  · simp [Res.setFresh, hty]
  · simpa [Res.setFresh, hg] using hfr
  · simp only at he
    omega
  · simp [Res.setFresh] at hfr

theorem setInode_step (h : Inv s R) (a : Answer) (hc : s.code p = some (.setInode f t k)) :
    Post Safe (fun s' => ∃ R', Inv s' R') (Prog.step a p s (.setInode f t k)) := by
  obtain ⟨h0, hpos, h1⟩ := h.procs.busy p _ hc
  obtain ⟨hty, href, hone⟩ := h.tables.fresh p f h0
  refine h.tables_step (s.setFile f _) hc h1 rfl rfl rfl rfl
    (h.tables.setFile (fun g _ => rfl) (fun u => ?_) (fun g hg hfr => ?_) rfl
      (fun q hq => h.tables.not_fresh hq (by omega)) (fun he => ?_) fun hfr => ?_)
  · simp only [Res.setFresh, Res.dropInode, hty, update_apply, reduceCtorEq, false_and,
      if_false, true_and]
    grind
  · simpa [Res.setFresh, Res.dropInode, hg] using hfr
  · simp only at he
    omega
  · simp [Res.setFresh, Res.dropInode] at hfr

/-- Who holds an inode is seen in its count. -/
theorem Tables.inode_pos (h : Tables ft ic R) (ht : 0 < (R p).inodes t) : 0 < (ic t).ref := by
  have := le_total (·.inodes t) R p
  rw [h.inode]
  omega

/-- One more reference to an inode that is in the cache. -/
theorem Tables.addInode (h : Tables ft ic R) (ht : 0 < (ic t).ref) (p : Pid) :
    Tables ft (update ic t { ic t with ref := (ic t).ref + 1 })
      (update R p ((R p).addInode t)) := by
  refine h.setI rfl rfl (fun u hu => update_of_ne hu ..) ?_ fun _ u hu hpos hk => ?_
  · simp [Res.addInode]
    omega
  · exact hu (h.uniq u t hpos ht hk)

theorem iget_step (h : Inv s R) (a : Answer) {key : Key} {k : ISlot → Prog}
    (hc : s.code p = some (.iget key k)) :
    Post Safe (fun s' => ∃ R', Inv s' R') (Prog.step a p s (.iget key k)) := by
  have hok := h.procs.busy p _ hc
  rw [Prog.step]
  split
  next t ht =>
    have hpos : 0 < (s.ic t).ref := by
      have := List.find?_some ht
      simp only [decide_eq_true_eq] at this
      exact this.1
    exact h.tables_step (s.setI t _) hc (hok t) rfl rfl rfl rfl (h.tables.addInode hpos p)
  next hnone =>
    split
    · exact ⟨nofun, nofun, nofun⟩
    next t ht =>
      have h0 : (s.ic t).ref = 0 := by simpa using List.find?_some ht
      refine h.tables_step (s.setI t _) hc (hok t) rfl rfl rfl rfl
        (h.tables.setI rfl rfl (fun u hu => update_of_ne hu ..) ?_
          fun _ u hu hpos hk => ?_)
      · simp [Res.addInode]
        omega
      · have := List.find?_eq_none.mp hnone u (List.mem_finRange u)
        simp only [decide_eq_true_eq] at this
        exact this ⟨hpos, hk⟩

theorem idup_step (h : Inv s R) (a : Answer) (hc : s.code p = some (.idup t k)) :
    Post Safe (fun s' => ∃ R', Inv s' R') (Prog.step a p s (.idup t k)) := by
  obtain ⟨h0, h1⟩ := h.procs.busy p _ hc
  exact h.tables_step (s.setI t _) hc h1 rfl rfl rfl rfl
    (h.tables.addInode (h.tables.inode_pos h0) p)

theorem iput_step (h : Inv s R) (a : Answer) (hc : s.code p = some (.iput t k)) :
    Post Safe (fun s' => ∃ R', Inv s' R') (Prog.step a p s (.iput t k)) := by
  obtain ⟨h0, h1⟩ := h.procs.busy p _ hc
  have hpos := h.tables.inode_pos h0
  refine h.tables_step (s.setI t _) hc h1 rfl rfl rfl rfl
    (h.tables.setI rfl rfl (fun u hu => update_of_ne hu ..) ?_ fun _ u hu hpos' hk => ?_)
  · simp [Res.dropInode]
    omega
  · exact hu (h.tables.uniq u t hpos' hpos hk)

/-- Only who is whose child changes. -/
theorem Tables.setChild (h : Tables ft ic R) (p : Pid) (o : Option Pid) :
    Tables ft ic (update R p ((R p).setChild o)) := by
  have hsame : ∀ q, (update R p ((R p).setChild o) q).files = (R q).files ∧
      (update R p ((R p).setChild o) q).inodes = (R q).inodes ∧
      (update R p ((R p).setChild o) q).fresh = (R q).fresh := by
    intro q
    by_cases hq : q = p
    · rw [hq, update_self]
      exact ⟨rfl, rfl, rfl⟩
    · rw [update_of_ne hq]
      exact ⟨rfl, rfl, rfl⟩
  refine h.congr (fun f => total_congr fun q => ?_) (fun t => total_congr fun q => ?_)
    fun q f hq => ⟨(hsame q).2.2 ▸ hq, by rw [(hsame q).1]⟩
  · rw [(hsame q).1]
  · rw [(hsame q).2.1]

theorem allocproc_step (h : Inv s R) (a : Answer) {k : Option Pid → Prog}
    (hc : s.code p = some (.allocproc k)) :
    Post Safe (fun s' => ∃ R', Inv s' R') (Prog.step a p s (.allocproc k)) := by
  obtain ⟨h0, h1, h2⟩ := h.procs.busy p _ hc
  rw [Prog.step]
  split
  · exact h.same hc h1
  next q _ =>
    split
    next hq =>
      have hl : s.status q ≠ .live := by
        rw [hq]
        decide
      obtain ⟨hx, hn⟩ := h.procs.dead q hl
      have hR : update R q Proc.empty.rest = R := by
        rw [← hx, ← (h.procs.idle q hn).1, update_eq_self]
      refine ⟨update R p ((R p).setChild (some q)), h.tables.setChild p _, ?_⟩
      rw [← hR]
      refine h.procs.fork hc hl ?_ rfl rfl (fun p' _ hc' => ?_) (.inr ⟨nofun, rfl⟩)
        (.inr ⟨rfl, rfl⟩) (hR.symm ▸ h2 q)
      · rw [← hx, update_eq_self]
        rfl
      · have := h.procs.child p' q hc'
        rw [hq] at this
        cases this
    · exact h.same hc h1

theorem freeproc_step (h : Inv s R) (a : Answer) (hc : s.code p = some (.freeproc q k)) :
    Post Safe (fun s' => ∃ R', Inv s' R') (Prog.step a p s (.freeproc q k)) := by
  obtain ⟨h0, h1⟩ := h.procs.busy p _ hc
  have hl : s.status q ≠ .live := by
    rw [h.procs.child p q h0]
    decide
  obtain ⟨hx, hn⟩ := h.procs.dead q hl
  have hR : update R q Proc.empty.rest = R := by
    rw [← hx, ← (h.procs.idle q hn).1, update_eq_self]
  refine ⟨update R p ((R p).setChild none), h.tables.setChild p _, ?_⟩
  rw [← hR]
  refine h.procs.fork hc hl ?_ rfl rfl (fun p' hp hc' => hp (h.procs.own p' p q hc' h0))
    (.inr ⟨nofun, rfl⟩) (.inl rfl) (hR.symm ▸ h1)
  rw [← hx, update_eq_self]
  rfl

/-- What the new process holds has been held by its parent. -/
theorem ready_step (h : Inv s R) (a : Answer) {y : Proc} (hc : s.code p = some (.ready q y k)) :
    Post Safe (fun s' => ∃ R', Inv s' R') (Prog.step a p s (.ready q y k)) := by
  obtain ⟨h0, hcwd, hfile, hinode, h1⟩ := h.procs.busy p _ hc
  have hl : s.status q ≠ .live := by
    rw [h.procs.child p q h0]
    decide
  obtain ⟨hx, hn⟩ := h.procs.dead q hl
  have hpq : p ≠ q := by
    rintro rfl
    rw [hn] at hc
    cases hc
  have hq : R q = Proc.empty.rest := by rw [(h.procs.idle q hn).1, hx]
  refine ⟨update (update R q y.rest) p (((R p).less y.rest).setChild none), ?_, ?_⟩
  · refine h.tables.congr (fun f => ?_) (fun t => ?_) fun p' f hfr => ?_
    · have h2 := total_update (·.files f) (update R q y.rest) p
        (((R p).less y.rest).setChild none)
      have h3 := total_update (·.files f) R q y.rest
      have := (hfile f).1
      rw [update_of_ne hpq] at h2
      rw [hq, rest_empty] at h3
      simp only [Res.setChild, Res.less] at h2 h3 ⊢
      omega
    · have h2 := total_update (·.inodes t) (update R q y.rest) p
        (((R p).less y.rest).setChild none)
      have h3 := total_update (·.inodes t) R q y.rest
      have := hinode t
      rw [update_of_ne hpq] at h2
      rw [hq, rest_empty] at h3
      simp only [Res.setChild, Res.less] at h2 h3 ⊢
      omega
    · by_cases hp : p' = p
      · rw [hp, update_self] at hfr ⊢
        refine ⟨hfr, ?_⟩
        have := (hfile f).2 hfr
        simp only [Res.setChild, Res.less]
        omega
      · rw [update_of_ne hp] at hfr ⊢
        by_cases hp' : p' = q
        · rw [hp', update_self] at hfr
          exact hfr.elim
        · rw [update_of_ne hp'] at hfr ⊢
          exact ⟨hfr, rfl⟩
  · exact h.procs.fork hc hl rfl rfl rfl (fun p' hp hc' => hp (h.procs.own p' p q hc' h0))
      (.inl ⟨rfl, hcwd⟩) (.inl rfl) h1

/-- Every step of a system call keeps the invariant, and none of them panics over a count. -/
theorem step_inv (h : Inv s R) (a : Answer) (hc : s.code p = some c) :
    Post Safe (fun s' => ∃ R', Inv s' R') (c.step a p s) := by
  cases c with
  | done =>
    obtain ⟨h0, h1⟩ := h.procs.busy p _ hc
    refine ⟨R, h.tables, h.procs.finish hc rfl ?_ rfl h0 (.inl ⟨h.procs.live hc, h1⟩)⟩
    rw [update_eq_self]
    rfl
  | gone =>
    obtain ⟨h0, h1⟩ := h.procs.busy p _ hc
    exact ⟨R, h.tables, h.procs.finish hc rfl rfl rfl h0 (.inr ⟨rfl, h1⟩)⟩
  | panic e =>
    rcases h.procs.busy p _ hc with rfl | rfl <;> exact ⟨nofun, nofun, nofun⟩
  | filealloc k => exact filealloc_step h a hc
  | filedup f k => exact filedup_step h a hc
  | filedrop f k => exact filedrop_step h a hc
  | setPipe f k => exact setPipe_step h a hc
  | setInode f ip k => exact setInode_step h a hc
  | iget key k => exact iget_step h a hc
  | idup t k => exact idup_step h a hc
  | iput t k => exact iput_step h a hc
  | self k => exact h.same hc (h.procs.busy p (.self k) hc)
  | setFd fd o k => exact h.quiet hc (h.procs.busy p (.setFd fd o k) hc)
  | setCwd o k => exact h.quiet hc (h.procs.busy p (.setCwd o k) hc)
  | ask k => exact h.same hc (h.procs.busy p _ hc a.yes)
  | find k => exact h.same hc (h.procs.busy p _ hc a.key)
  | allocproc k => exact allocproc_step h a hc
  | freeproc q k => exact freeproc_step h a hc
  | ready q y k => exact ready_step h a hc

end

/-! ## Runs -/

theorem call_inv (h : Inv s R) (hl : s.status p = .live) (hn : s.code p = none) (c : Call) :
    Inv (s.resume p (some (c.prog p))) R := by
  obtain ⟨hR, hcwd⟩ := h.procs.idle p hn
  have : Procs (s.resume p (some (c.prog p))) (update R p (R p)) := h.procs.change
    (update_eq_self p s.proc).symm (update_eq_self p s.status).symm rfl (fun hd => absurd hl hd)
    nofun (fun c' hc => ?_) rfl (by rw [hl]; nofun)
  · rw [update_eq_self] at this
    exact ⟨h.tables, this⟩
  · cases hc
    exact hR ▸ c.prog_ok (hcwd hl) p

theorem reap_inv (h : Inv s R) (hz : s.status p = .zombie) : Inv (s.setStatus p .unused) R := by
  obtain ⟨hx, hn⟩ := h.procs.dead p (by rw [hz]; decide)
  have : Procs (s.setStatus p .unused) (update R p (R p)) := h.procs.change
    (update_eq_self p s.proc).symm rfl (update_eq_self p s.code).symm (fun _ => ⟨hx, hn⟩)
    (fun _ => ⟨(h.procs.idle p hn).1, nofun⟩) (h.procs.busy p) rfl (by rw [hz]; nofun)
  rw [update_eq_self] at this
  exact ⟨h.tables, this⟩

theorem boot_inv : Inv boot fun p => (boot.proc p).rest := by
  have hfd : ∀ p fd, (boot.proc p).ofile fd = none := by
    intro p fd
    change (if p = initproc then (⟨some 0, fun _ => none⟩ : Proc) else .empty).ofile fd = none
    split <;> rfl
  have hfiles : ∀ p f, (boot.proc p).rest.files f = 0 := fun p f =>
    tally_eq_zero fun fd h => by rw [hfd] at h; cases h
  have hproc : ∀ p, p ≠ initproc → boot.proc p = .empty := fun p hp => if_neg hp
  have hic : ∀ t, 0 < (boot.ic t).ref → t = 0 := by
    intro t ht
    by_contra hne
    change 0 < (if t = 0 then (⟨(ROOTDEV, ROOTINO), 1⟩ : Inode) else ⟨(0, 0), 0⟩).ref at ht
    rw [if_neg hne] at ht
    cases ht
  refine ⟨⟨fun f => ?_, fun t => ?_, fun _ _ => rfl, fun p f h => h.elim, fun t u ht hu _ => ?_⟩,
    ⟨fun p hp => ⟨hproc p fun h => hp ?_, rfl⟩, fun p _ => ⟨rfl, fun hl => ?_⟩,
      fun _ _ h => (Option.some_ne_none _ h.symm).elim,
      fun _ _ h => (Option.some_ne_none _ h.symm).elim,
      fun _ _ _ h => (Option.some_ne_none _ h.symm).elim⟩⟩
  · exact (total_eq_zero (w := fun r : Res => r.files f) fun p => hfiles p f).symm
  · have hR : (fun p => (boot.proc p).rest) = update (fun _ => Proc.empty.rest) initproc
        (⟨some 0, fun _ => none⟩ : Proc).rest := by
      funext p
      by_cases hp : p = initproc
      · rw [hp, update_self]
        rfl
      · rw [update_of_ne hp, hproc p hp]
    have hu := total_update (·.inodes t) (fun _ : Pid => Proc.empty.rest) initproc
      (⟨some 0, fun _ => none⟩ : Proc).rest
    have h0 : total (·.inodes t) (fun _ : Pid => Proc.empty.rest) = 0 := total_eq_zero fun _ => rfl
    have hft : tally (fun x : File => x.type = .inode ∧ x.ip = t) boot.ft = 0 :=
      tally_eq_zero fun f h => FdType.noConfusion h.1
    have href : (boot.ic t).ref = if t = 0 then 1 else 0 := by
      change (if t = 0 then (⟨(ROOTDEV, ROOTINO), 1⟩ : Inode) else ⟨(0, 0), 0⟩).ref = _
      split <;> rfl
    have he : Proc.empty.rest.inodes t = 0 := rfl
    have hc : (⟨some 0, fun _ => none⟩ : Proc).rest.inodes t = if t = 0 then 1 else 0 := by
      simp only [Proc.rest, Option.some.injEq, eq_comm (a := (0 : ISlot))]
    rw [h0, he, hc] at hu
    rw [href, hft, hR]
    omega
  · rw [hic t ht, hic u hu]
  · rw [h]
    rfl
  · by_cases hp : p = initproc
    · rw [hp]
      exact Option.some_ne_none _
    · change (if p = initproc then Status.live else .unused) = .live at hl
      rw [if_neg hp] at hl
      cases hl

theorem reach_inv (h : machine.Reach s) : ∃ R, Inv s R := by
  refine h.invariant (P := fun s => ∃ R, Inv s R) ?_ fun s x s' _ hi hstep => ?_
  · rintro s rfl
    exact ⟨_, boot_inv⟩
  obtain ⟨R, hi⟩ := hi
  obtain ⟨p, e⟩ := x
  cases e with
  | call c =>
    obtain ⟨hpre, he⟩ := Option.ite_none_right_eq_some.mp hstep
    cases he
    exact ⟨R, call_inv hi hpre.1 (Option.isNone_iff_eq_none.mp hpre.2) c⟩
  | run a =>
    obtain ⟨c, hc, hs⟩ := Option.map_eq_some_iff.mp hstep
    exact (step_inv hi a hc).of_ok hs
  | reap =>
    obtain ⟨hpre, he⟩ := Option.ite_none_right_eq_some.mp hstep
    cases he
    exact ⟨R, reap_inv hi hpre⟩

/-- The descriptors that point to `f`. -/
def State.descriptors (s : State) (f : FSlot) : Nat :=
  total (fun x : Proc => tally (· = some f) x.ofile) s.proc

/-- The open files and current directories that point to `t`. -/
def State.holders (s : State) (t : ISlot) : Nat :=
  tally (fun x : File => x.type = .inode ∧ 0 < x.ref ∧ x.ip = t) s.ft +
    tally (fun x : Proc => x.cwd = some t) s.proc

theorem holders_eq (h : Tables s.ft s.ic R) (hR : ∀ p, R p = (s.proc p).rest) (t : ISlot) :
    s.holders t = (s.ic t).ref := by
  have hfile : tally (fun x : File => x.type = .inode ∧ 0 < x.ref ∧ x.ip = t) s.ft =
      tally (fun x : File => x.type = .inode ∧ x.ip = t) s.ft := by
    refine tally_congr fun f => ⟨fun hf => ⟨hf.1, hf.2.2⟩, fun hf => ⟨hf.1, ?_, hf.2⟩⟩
    by_contra h0
    have hty := h.empty f (Nat.eq_zero_of_not_pos h0)
    rw [hf.1] at hty
    cases hty
  have hcwd : total (·.inodes t) R = tally (fun x : Proc => x.cwd = some t) s.proc := by
    refine total_eq_tally fun p => ?_
    rw [hR p]
    rfl
  rw [h.inode, State.holders, hfile, hcwd]

/-- In every interleaving: no step of a system call panics in `filedup` or `fileclose`; no two
entries of the inode cache are the same inode; and when no system call is in progress the count of a
file is the number of descriptors that point to it, and that of an inode the number of open files and
current directories. -/
theorem refs_exact (h : machine.Reach s) :
    (∀ p c a, s.code p = some c → c.step a p s ≠ .error .filedup ∧ c.step a p s ≠ .error .fileclose) ∧
    (∀ t u, 0 < (s.ic t).ref → 0 < (s.ic u).ref → (s.ic t).key = (s.ic u).key → t = u) ∧
    ((∀ p, s.code p = none) →
      (∀ f, (s.ft f).ref = s.descriptors f) ∧ ∀ t, (s.ic t).ref = s.holders t) := by
  obtain ⟨R, hi⟩ := reach_inv h
  refine ⟨fun p c a hc => ⟨fun he => ?_, fun he => ?_⟩, hi.tables.uniq, fun hn => ?_⟩
  · exact ((step_inv hi a hc).of_error he).1 rfl
  · exact ((step_inv hi a hc).of_error he).2.1 rfl
  · have hR : ∀ p, R p = (s.proc p).rest := fun p => (hi.procs.idle p (hn p)).1
    refine ⟨fun f => ?_, fun t => (holders_eq hi.tables hR t).symm⟩
    rw [hi.tables.file]
    refine total_congr fun p => ?_
    rw [hR p]
    rfl

/-- Events one after another; `none` if one of them is not possible. -/
def runs : List (Pid × Event) → State → Option State
  | [], s => some s
  | (p, e) :: l, s =>
    match next s p e with
    | some (.ok s') => runs l s'
    | _ => none

theorem reach_runs {l : List (Pid × Event)} (hs : machine.Reach s) (h : runs l s = some s') :
    machine.Reach s' := by
  induction l generalizing s with
  | nil =>
    cases h
    exact hs
  | cons x l ih =>
    obtain ⟨p, e⟩ := x
    rw [runs] at h
    split at h
    next s₁ hn => exact ih (.step (a := (p, e)) hs hn) h
    · cases h

/-- The root is opened, and the descriptor duplicated. -/
theorem refs_exact_dup : ∃ s, machine.Reach s ∧ (s.ft 0).ref = 2 ∧ s.descriptors 0 = 2 ∧
    s.holders 0 = 2 := by
  let run : Event := .run ⟨false, none, none⟩
  have hr : ((runs ((0, .call (.sysOpen ⟨true, 0⟩ false)) :: List.replicate 7 (0, run) ++
      (0, .call (.dup 0)) :: List.replicate 5 (0, run)) boot).any fun s =>
      (∀ p, (s.code p).isNone) ∧ (s.ft 0).ref = 2 ∧ (s.ic 0).ref = 2) = true := by
    decide +kernel
  cases hs : runs ((0, .call (.sysOpen ⟨true, 0⟩ false)) :: List.replicate 7 (0, run) ++
      (0, .call (.dup 0)) :: List.replicate 5 (0, run)) boot with
  | none =>
    rw [hs] at hr
    cases hr
  | some s =>
    rw [hs] at hr
    obtain ⟨hn, hf, hi⟩ := of_decide_eq_true hr
    have hreach : machine.Reach s := reach_runs (.init rfl) hs
    have h := (refs_exact hreach).2.2 fun p => Option.isNone_iff_eq_none.mp (hn p)
    exact ⟨s, hreach, hf, (h.1 0).symm.trans hf, (h.2 0).symm.trans hi⟩

end Xv6.Refs
