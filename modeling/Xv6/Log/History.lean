import Xv6.Lib.Txn
import Xv6.Log.Steps

/-!
# Operations and what they logged

A history beside the machine gives every operation a number, records each
completed `log_write` with the operation that made it, and notes which operations a
header write has committed.  The invariant is then carried with the contents that
the history stands for.
-/

namespace Xv6.Log

open Function List

structure Ghost where
  hist : Txn.Hist Nat Nat Block := {}
  /-- the number of the next operation -/
  next : Nat := 0
  opOf : Slot → Nat := fun _ => 0

/-- What a step adds to the history. -/
def Ghost.step (s : State) (a : Act) (_ : State) (g : Ghost) : Ghost :=
  match a with
  | .beginOp t =>
    { hist := g.hist.start g.next, next := g.next + 1, opOf := update g.opOf t g.next }
  | .logAppend t =>
    match s.pc t with
    | .checked i =>
      match (s.cache.buf i).blockno with
      | some b => { g with hist := g.hist.write (g.opOf t) b (s.cache.buf i).data }
      | none => g
    | _ => g
  | .next t =>
    match s.pc t with
    | .commit p =>
      if p.commits then { g with hist := g.hist.commit }
      -- also the end of a transaction that logged nothing, and had no header to write
      else if p = .finish then { g with hist := g.hist.drop }
      else g
    | _ => g
  | .crash => { g with hist := g.hist.drop }
  | _ => g

/-- The machine with its history. -/
def histories (A : Area) (d₀ : Disk) : System (State × Ghost) Act :=
  (machine A d₀).withGhost {} Ghost.step

/-- The points of `commit` up to the write of the header. -/
def Pt.logs : Pt → Bool
  | .top .toLog _ | .gotLog .toLog _ _ | .gotBoth .toLog _ _ _ | .copied .toLog _ _ _
  | .head false | .headGot false _ => true
  | _ => false

/-- The open transaction is not yet committed. -/
def State.Open (s : State) : Prop := ∀ t p, s.pc t = .commit p → p.logs = true

structure GhostOk (s : State) (g : Ghost) : Prop where
  writes_lt : ∀ w ∈ g.hist.writes, w.op < g.next
  cur_lt : ∀ o ∈ g.hist.cur, o < g.next
  done_lt : ∀ o ∈ g.hist.done, o < g.next
  disj : ∀ o ∈ g.hist.cur, o ∉ g.hist.done
  opOf : ∀ t, (s.pc t).inOp = true → g.opOf t ∈ g.hist.cur
  touched : s.Open → ∀ b, b ∈ s.lh ↔ b ∈ g.hist.touched
  closed : ¬ s.Open → g.hist.touched = []

section
variable {A : Area} {s s' : State} {g : Ghost} {t : Slot} {p : Pt} {dur mem : Disk} {ph : Phase}

/-- Where a step of `commit` or `recover_from_log` leads, and when it can change the header in memory
and the disk. -/
theorem commitStep_cases (hs : s.commitStep A t p = .ok s') :
    ((p = .finish ∧ s'.pc = update s.pc t .user ∧ s'.lh = s.lh) ∨
      ∃ p', p ≠ .finish ∧ s'.pc = update s.pc t (.commit p') ∧
        p'.logs = (p.logs && !p.commits) ∧
        (s'.lh = s.lh ∨ p'.logs = false ∧ (s'.lh = [] ∨ p' = .top .toHome 0))) ∧
    (s'.disk = s.disk ∨ (∃ e i, p = .headGot e i) ∨ ∃ dir k i j, p = .gotBoth dir k i j) := by
  unfold State.commitStep at hs
  cases p with
  | finish =>
    obtain rfl := Except.ok.inj hs
    exact ⟨.inl ⟨rfl, rfl, rfl⟩, .inl rfl⟩
  | readHead =>
    obtain ⟨x, -, hs⟩ := bind_ok hs
    obtain rfl := Except.ok.inj hs
    exact ⟨.inr ⟨_, by simp, rfl, rfl, .inl rfl⟩, .inl rfl⟩
  | readHeadGot i =>
    obtain ⟨x, -, hs⟩ := bind_ok hs
    obtain rfl := Except.ok.inj hs
    exact ⟨.inr ⟨_, by simp, rfl, rfl, .inr ⟨rfl, .inr rfl⟩⟩, .inl rfl⟩
  | top dir k =>
    dsimp only at hs
    split at hs
    · obtain ⟨x, -, hs⟩ := bind_ok hs
      obtain rfl := Except.ok.inj hs
      exact ⟨.inr ⟨_, by simp, rfl, by cases dir <;> rfl, .inl rfl⟩, .inl rfl⟩
    · cases dir with
      | toLog =>
        obtain rfl := Except.ok.inj hs
        exact ⟨.inr ⟨_, by simp, rfl, rfl, .inl rfl⟩, .inl rfl⟩
      | toHome =>
        obtain rfl := Except.ok.inj hs
        exact ⟨.inr ⟨_, by simp, rfl, rfl, .inr ⟨rfl, .inl rfl⟩⟩, .inl rfl⟩
  | gotLog dir k i =>
    dsimp only at hs
    split at hs
    · obtain ⟨x, -, hs⟩ := bind_ok hs
      obtain rfl := Except.ok.inj hs
      exact ⟨.inr ⟨_, by simp, rfl, by cases dir <;> rfl, .inl rfl⟩, .inl rfl⟩
    · cases hs
  | gotBoth dir k i j =>
    refine ⟨.inr ?_, .inr (.inr ⟨dir, k, i, j, rfl⟩)⟩
    cases dir with
    | toLog | toHome =>
      obtain ⟨x, -, hs⟩ := bind_ok hs
      obtain rfl := Except.ok.inj hs
      exact ⟨_, by simp, rfl, rfl, .inl rfl⟩
  | copied dir k i j =>
    cases dir with
    | toLog | toHome =>
      obtain ⟨x, -, hs⟩ := bind_ok hs
      obtain ⟨y, -, hs⟩ := bind_ok hs
      obtain rfl := Except.ok.inj hs
      exact ⟨.inr ⟨_, by simp, rfl, rfl, .inl rfl⟩, .inl rfl⟩
  | head e | headDone e i =>
    obtain ⟨x, -, hs⟩ := bind_ok hs
    obtain rfl := Except.ok.inj hs
    exact ⟨.inr ⟨_, by simp, rfl, by cases e <;> rfl, .inl rfl⟩, .inl rfl⟩
  | headGot e i =>
    obtain ⟨x, -, hs⟩ := bind_ok hs
    obtain rfl := Except.ok.inj hs
    exact ⟨.inr ⟨_, by simp, rfl, by cases e <;> rfl, .inl rfl⟩, .inr (.inl ⟨e, i, rfl⟩)⟩

theorem store_pc {i : BufId} {v : Block} (hs : s.store A t i v = .ok s') :
    s.pc t = .op ∧ s'.pc = update s.pc t (.stored i) ∧ s'.lh = s.lh := by
  unfold State.store at hs
  split at hs
  · next ht =>
    obtain rfl := Except.ok.inj hs
    exact ⟨ht.1, rfl, rfl⟩
  · cases hs

theorem logCheck_pc (hs : s.logCheck A t = .ok s') :
    ∃ i, s.pc t = .stored i ∧ s'.pc = update s.pc t (.checked i) ∧ s'.lh = s.lh := by
  unfold State.logCheck at hs
  split at hs
  · next i ht =>
    split at hs
    · cases hs
    · split at hs
      · cases hs
      · obtain rfl := Except.ok.inj hs
        exact ⟨i, ht, rfl, rfl⟩
  · cases hs

theorem logAppend_pc (hs : s.logAppend t = .ok s') :
    ∃ i, s.pc t = .checked i ∧ s'.pc = update s.pc t .op := by
  unfold State.logAppend at hs
  split at hs
  · next i ht =>
    split at hs
    · obtain rfl := Except.ok.inj hs
      exact ⟨i, ht, rfl⟩
    · cases hs
  · cases hs

theorem beginOp_pc (hs : s.beginOp t = .ok s') :
    s.pc t = .user ∧ s'.pc = update s.pc t .op ∧ s'.lh = s.lh ∧ s'.cache = s.cache ∧
      s'.outstanding = s.outstanding + 1 ∧
      s.lh.length + (s.outstanding + 1) * MAXOPBLOCKS ≤ LOGSIZE := by
  unfold State.beginOp at hs
  split at hs
  · next ht =>
    split at hs
    · cases hs
    · split at hs
      · cases hs
      · next hn =>
        obtain rfl := Except.ok.inj hs
        exact ⟨ht.1, rfl, rfl, rfl, rfl, Nat.le_of_not_lt hn⟩
  · cases hs

theorem endOp_pc (hs : s.endOp t = .ok s') :
    s.pc t = .op ∧ s'.lh = s.lh ∧ ∃ q, s'.pc = update s.pc t q ∧
      (q = .user ∨ q = .commit (.top .toLog 0) ∨ q = .commit .finish ∧ s.lh = []) := by
  unfold State.endOp at hs
  split at hs
  · next ht =>
    split at hs
    · cases hs
    · split at hs
      · obtain rfl := Except.ok.inj hs
        refine ⟨ht, rfl, _, rfl, .inr ?_⟩
        split
        · exact .inl rfl
        · next hl => exact .inr ⟨rfl, by simpa using hl⟩
      · obtain rfl := Except.ok.inj hs
        exact ⟨ht, rfl, _, rfl, .inl rfl⟩
  · cases hs

theorem bread_pc {b : Nat} (hs : s.bread t b = .ok s') : s'.pc = s.pc ∧ s'.lh = s.lh := by
  unfold State.bread at hs
  split at hs
  · obtain ⟨x, -, hs⟩ := bind_ok hs
    obtain rfl := Except.ok.inj hs
    exact ⟨rfl, rfl⟩
  · cases hs

theorem brelse_pc {i : BufId} (hs : s.brelse t i = .ok s') : s'.pc = s.pc ∧ s'.lh = s.lh := by
  unfold State.brelse at hs
  split at hs
  · obtain ⟨x, -, hs⟩ := bind_ok hs
    obtain rfl := Except.ok.inj hs
    exact ⟨rfl, rfl⟩
  · cases hs

/-! ## The history along a run -/

/-- A step by a process that neither was nor is in `commit`. -/
theorem Open.setPc {q : Pc} (hpc : s'.pc = update s.pc t q) (ht : ∀ p, s.pc t ≠ .commit p)
    (hq : ∀ p, q ≠ .commit p) : s'.Open ↔ s.Open := by
  refine forall_congr' fun u => ?_
  rw [hpc]
  by_cases he : u = t
  · subst he
    rw [update_self]
    exact ⟨fun _ p hp => absurd hp (ht p), fun _ p hp => absurd hp (hq p)⟩
  · rw [update_of_ne he]

theorem open_of_none (h : Inv A s none dur mem) : s.Open :=
  fun u p hp => absurd hp (h.phase.2.2 u p)

theorem open_iff (h : Inv A s (some (t, p)) dur mem) : s.Open ↔ p.logs = true := by
  obtain ⟨-, -, -, ht, hu⟩ := h.phase
  refine ⟨fun ho => ho t p ht, fun hl u q hq => ?_⟩
  obtain rfl := hu u q hq
  rw [ht] at hq
  cases hq
  exact hl

namespace GhostOk

section
variable (hg : GhostOk s g)
include hg

/-- The history stays, and who is in an operation was in it before. -/
theorem congr (hop : ∀ u, (s'.pc u).inOp = true → (s.pc u).inOp = true)
    (ho : s'.Open ↔ s.Open) (hl : s'.lh = s.lh) : GhostOk s' g :=
  { hg with
    opOf := fun u hu => hg.opOf u (hop u hu)
    touched := fun h b => by rw [hl]; exact hg.touched (ho.1 h) b
    closed := fun h => hg.closed (mt ho.2 h) }

theorem setPc {q : Pc} (hpc : s'.pc = update s.pc t q)
    (hin : q.inOp = true → (s.pc t).inOp = true) (ho : s'.Open ↔ s.Open) (hl : s'.lh = s.lh) :
    GhostOk s' g := by
  refine hg.congr (fun u hu => ?_) ho hl
  rw [hpc] at hu
  by_cases he : u = t
  · subst he
    rw [update_self] at hu
    exact hin hu
  · rwa [update_of_ne he] at hu

theorem beginOp (hs : s.beginOp t = .ok s') : GhostOk s' (Ghost.step s (.beginOp t) s' g) := by
  obtain ⟨ht, hpc, hl, -⟩ := beginOp_pc hs
  have ho : s'.Open ↔ s.Open := Open.setPc hpc (by simp [ht]) (by simp)
  have hfresh : ∀ w ∈ g.hist.writes, w.op ≠ g.next := fun w hw => Nat.ne_of_lt (hg.writes_lt w hw)
  have hcur : ∀ o, o ∈ (g.hist.start g.next).cur ↔ o ∈ g.hist.cur ∨ o = g.next := by
    simp [Txn.Hist.start]
  refine ⟨fun w hw => Nat.lt_succ_of_lt (hg.writes_lt w hw), fun o h => ?_,
    fun o h => Nat.lt_succ_of_lt (hg.done_lt o h), fun o h hd => ?_, fun u hu => ?_, fun h b => ?_,
    fun h => ?_⟩
  · rcases (hcur o).1 h with h | rfl
    · exact Nat.lt_succ_of_lt (hg.cur_lt o h)
    · exact Nat.lt_succ_self _
  · rcases (hcur o).1 h with h | rfl
    · exact hg.disj o h hd
    · exact Nat.lt_irrefl _ (hg.done_lt _ hd)
  · refine (hcur _).2 ?_
    change update g.opOf t g.next u ∈ _ ∨ update g.opOf t g.next u = _
    by_cases he : u = t
    · subst he
      exact .inr (update_self ..)
    · rw [update_of_ne he]
      rw [hpc, update_of_ne he] at hu
      exact .inl (hg.opOf u hu)
  · rw [hl]
    exact (hg.touched (ho.1 h) b).trans (by
      rw [show (Ghost.step s (.beginOp t) s' g).hist.touched = _ from Txn.Hist.touched_start hfresh])
  · exact (Txn.Hist.touched_start hfresh).trans (hg.closed (mt ho.2 h))

theorem logAppend (hi : Inv A s ph dur mem) (hs : s.logAppend t = .ok s') :
    ∃ i b, (s.cache.buf i).blockno = some b ∧ ph = none ∧ g.opOf t ∈ g.hist.cur ∧
      (Ghost.step s (.logAppend t) s' g).hist = g.hist.write (g.opOf t) b (s.cache.buf i).data ∧
      Inv A s' ph dur (update mem b (s.cache.buf i).data) ∧
      GhostOk s' (Ghost.step s (.logAppend t) s' g) := by
  obtain ⟨i, b, ht, hb, rfl, hlh, hi'⟩ := hi.logAppend hs
  obtain ⟨-, -, hpc⟩ := logAppend_pc hs
  have hop : g.opOf t ∈ g.hist.cur := hg.opOf t (by rw [ht]; rfl)
  have hg' : Ghost.step s (.logAppend t) s' g =
      { g with hist := g.hist.write (g.opOf t) b (s.cache.buf i).data } := by
    simp only [Ghost.step, ht, hb]
  refine ⟨i, b, hb, rfl, hop, by rw [hg'], hi', ?_⟩
  rw [hg']
  refine ⟨fun w hw => ?_, hg.cur_lt, hg.done_lt, hg.disj, fun u hu => ?_, fun h x => ?_,
    fun h => absurd (open_of_none hi') h⟩
  · rcases mem_append.1 hw with hw | hw
    · exact hg.writes_lt w hw
    · rw [mem_singleton.1 hw]
      exact hg.cur_lt _ hop
  · by_cases he : u = t
    · subst he
      exact hop
    · rw [hpc, update_of_ne he] at hu
      exact hg.opOf u hu
  · rw [hlh, mem_absorb, hg.touched (open_of_none hi) x]
    dsimp only
    rw [Txn.Hist.touched_write hop]
    simp

theorem endOp (hi : Inv A s none dur mem) (hs : s.endOp t = .ok s') : GhostOk s' g := by
  obtain ⟨ht, hl, q, hpc, hq⟩ := endOp_pc hs
  have hop : ∀ u, (s'.pc u).inOp = true → (s.pc u).inOp = true := by
    intro u hu
    rw [hpc] at hu
    by_cases he : u = t
    · subst he
      rw [ht]
      rfl
    · rwa [update_of_ne he] at hu
  have hcommit : ∀ u p, s'.pc u = .commit p → q = .commit p := by
    intro u p hp
    rw [hpc] at hp
    by_cases he : u = t
    · subst he
      rwa [update_self] at hp
    · rw [update_of_ne he] at hp
      exact absurd hp (hi.phase.2.2 u p)
  have hself : s'.pc t = q := by rw [hpc, update_self]
  rcases hq with rfl | rfl | ⟨rfl, hnil⟩
  · exact hg.congr hop (Open.setPc hpc (by simp [ht]) (by simp)) hl
  · refine hg.congr hop (iff_of_true (fun u p hp => ?_) (open_of_none hi)) hl
    cases hcommit u p hp
    rfl
  · have hto : g.hist.touched = [] := by
      refine eq_nil_iff_forall_not_mem.2 fun b hb => ?_
      have := (hg.touched (open_of_none hi) b).2 hb
      rw [hnil] at this
      exact not_mem_nil this
    exact { hg with
      opOf := fun u hu => hg.opOf u (hop u hu)
      touched := fun h => by cases h t _ hself
      closed := fun _ => hto }

/-- The open transaction ends: committed, dropped or lost. -/
theorem close {h : Txn.Hist Nat Nat Block} (hw : h.writes = g.hist.writes)
    (hc : h.cur = []) (hd : ∀ o ∈ h.done, o ∈ g.hist.done ∨ o ∈ g.hist.cur)
    (hop : ∀ u, (s'.pc u).inOp = false) (hl : s'.Open → s'.lh = []) :
    GhostOk s' { g with hist := h } := by
  have ht : h.touched = [] := by simp [Txn.Hist.touched, Txn.Hist.writesOf, hc]
  refine ⟨fun w => by rw [hw]; exact hg.writes_lt w, by simp [hc], fun o ho => ?_, by simp [hc],
    fun u hu => ?_, fun h b => ?_, fun _ => ht⟩
  · exact (hd o ho).elim (hg.done_lt o) (hg.cur_lt o)
  · rw [hop u] at hu
    cases hu
  · rw [hl h, ht]

theorem next (hi : Inv A s ph dur mem) (hs : s.next A t = .ok s') :
    GhostOk s' (Ghost.step s (.next t) s' g) := by
  obtain ⟨p, ph', rfl, ht, hi'⟩ := hi.next hs
  have hop : ∀ u q, q.inOp = false → s'.pc = update s.pc t q → (s'.pc u).inOp = false := by
    intro u q hq hpc
    rw [hpc]
    by_cases he : u = t
    · subst he
      rwa [update_self]
    · rw [update_of_ne he]
      exact hi.noOps u
  have hstep : s.commitStep A t p = .ok s' := by
    simpa only [State.next, ht] using hs
  have hgs : Ghost.step s (.next t) s' g = if p.commits then { g with hist := g.hist.commit }
      else if p = .finish then { g with hist := g.hist.drop } else g := by
    simp only [Ghost.step, ht]
  rw [hgs]
  rcases (commitStep_cases hstep).1 with ⟨rfl, hpc, hl⟩ | ⟨p', hf, hpc, hlogs, hl⟩
  · exact hg.close rfl rfl (fun o ho => .inl ho) (fun u => hop u _ rfl hpc)
      fun _ => hl.trans hi.phase.1.1.lh
  · have hself : s'.pc t = .commit p' := by rw [hpc, update_self]
    obtain rfl : ph' = some (t, p') := hi'.phase_eq hself
    have hno : p.commits = true → ¬ s'.Open := fun hc ho => by
      rw [open_iff hi', hlogs, hc, Bool.not_true, Bool.and_false] at ho
      cases ho
    split
    · next hc =>
      exact hg.close rfl rfl (fun o ho => mem_append.1 ho) (fun u => hop u _ rfl hpc)
        fun ho => absurd ho (hno hc)
    · next hc =>
      have ho : s'.Open ↔ s.Open := by
        rw [open_iff hi', open_iff hi, hlogs]
        simp [hc]
      refine { hg with
        opOf := fun u hu => by rw [hop u _ rfl hpc] at hu; cases hu
        touched := fun h b => ?_
        closed := fun h => hg.closed (mt ho.2 h) }
      rcases hl with hl | ⟨hno, -⟩
      · rw [hl]
        exact hg.touched (ho.1 h) b
      · exact nomatch hno.symm.trans ((open_iff hi').1 h)

end

end GhostOk

theorem Recoverable.clear {d : Disk} (h : (d A.start).header = []) : Recoverable A d d :=
  ⟨h ▸ (by decide), h ▸ nodup_nil, fun b hb => absurd (h ▸ hb) not_mem_nil,
    fun k b hk => (by rw [h] at hk; cases hk), fun _ _ _ => rfl⟩

theorem not_open_boot (d : Disk) : ¬ (State.boot d).Open := fun h => by
  cases h 0 .readHead (boot_pc d 0)

/-- The run lemma: in every state of every run, with the contents that the history stands for. -/
theorem reach_inv {d₀ : Disk} (h0 : (d₀ A.start).header = []) {x : State × Ghost}
    (h : (histories A d₀).Reach x) :
    ∃ ph, Inv A x.1 ph (x.2.hist.durable d₀) (x.2.hist.view d₀) ∧ GhostOk x.1 x.2 := by
  have hboot : ∀ d u, ((State.boot d).pc u).inOp = false := by
    intro d u
    rw [boot_pc]
    split <;> rfl
  induction h with
  | @init x hx =>
    obtain ⟨s, g⟩ := x
    obtain ⟨rfl, rfl⟩ := hx
    refine ⟨_, .boot (.clear h0), by simp, by simp, by simp, by simp, fun u hu => ?_,
      fun h => absurd h (not_open_boot d₀), fun _ => rfl⟩
    rw [hboot d₀ u] at hu
    cases hu
  | @step x a y _ hstep ih =>
    obtain ⟨s, g⟩ := x
    obtain ⟨s', g'⟩ := y
    obtain ⟨ph, hi, hg⟩ := ih
    obtain ⟨hs, hgs⟩ := hstep
    dsimp only at hs hgs hi hg ⊢
    subst hgs
    cases a with
    | beginOp t =>
      have hfresh : ∀ w ∈ g.hist.writes, w.op ≠ g.next := fun w hw => Nat.ne_of_lt (hg.writes_lt w hw)
      refine ⟨ph, ?_, hg.beginOp hs⟩
      rw [show (Ghost.step s (.beginOp t) s' g).hist = g.hist.start g.next from rfl,
        Txn.Hist.view_start hfresh]
      exact hi.beginOp hs
    | bread t b =>
      obtain ⟨hpc, hl⟩ := bread_pc hs
      exact ⟨ph, hi.bread hs, hg.congr (fun u => by rw [hpc]; exact id)
        (by unfold State.Open; rw [hpc]) hl⟩
    | brelse t i =>
      obtain ⟨hpc, hl⟩ := brelse_pc hs
      exact ⟨ph, hi.brelse hs, hg.congr (fun u => by rw [hpc]; exact id)
        (by unfold State.Open; rw [hpc]) hl⟩
    | store t i v =>
      obtain ⟨ht, hpc, hl⟩ := store_pc hs
      exact ⟨ph, hi.store hs, hg.setPc hpc (by simp [ht, Pc.inOp])
        (Open.setPc hpc (by simp [ht]) (by simp)) hl⟩
    | logCheck t =>
      obtain ⟨i, ht, hpc, hl⟩ := logCheck_pc hs
      exact ⟨ph, hi.logCheck hs, hg.setPc hpc (by simp [ht, Pc.inOp])
        (Open.setPc hpc (by simp [ht]) (by simp)) hl⟩
    | logAppend t =>
      obtain ⟨i, b, -, -, hop, hh, hi', hg'⟩ := hg.logAppend hi hs
      refine ⟨ph, ?_, hg'⟩
      rw [hh, Txn.Hist.durable_write (hg.disj _ hop), Txn.Hist.view_write hop]
      exact hi'
    | endOp t =>
      obtain ⟨rfl, ph', hi'⟩ := hi.endOp hs
      exact ⟨ph', hi', hg.endOp hi hs⟩
    | next t =>
      obtain ⟨p, ph', rfl, ht, hi'⟩ := hi.next hs
      refine ⟨ph', ?_, hg.next hi hs⟩
      have hgs : (Ghost.step s (.next t) s' g).hist = if p.commits then g.hist.commit
          else if p = .finish then g.hist.drop else g.hist := by
        simp only [Ghost.step, ht]
        split
        · rfl
        · split <;> rfl
      rw [hgs]
      by_cases hc : p.commits = true
      · rw [if_pos hc] at hi' ⊢
        rw [Txn.Hist.durable_commit, Txn.Hist.view_commit]
        exact hi'
      · rw [if_neg hc] at hi' ⊢
        split
        · next hf =>
          subst hf
          have ho : ¬ s.Open := fun ho => by cases (open_iff hi).1 ho
          rw [Txn.Hist.view_of_touched (hg.closed ho)] at hi'
          rw [Txn.Hist.view_drop, Txn.Hist.durable_drop]
          exact hi'
        · exact hi'
    | crash =>
      obtain rfl := Except.ok.inj hs
      refine ⟨some (0, .readHead), ?_, hg.close rfl rfl (fun o ho => .inl ho) (hboot s.disk)
        fun h => absurd h (not_open_boot s.disk)⟩
      rw [show (Ghost.step s .crash (.boot s.disk) g).hist = g.hist.drop from rfl,
        Txn.Hist.view_drop]
      exact .boot hi.disk

end

/-! ## Running the machine -/

/-- The state and history after a list of actions that all meet `ok`. -/
def runHist (A : Area) (ok : State × Ghost → Act → Prop) [∀ x a, Decidable (ok x a)]
    (x : State × Ghost) (acts : List Act) : Option (State × Ghost) :=
  acts.foldlM (fun x a =>
    match x.1.exec A a with
    | .ok s' => if ok x a then some (s', Ghost.step x.1 a s' x.2) else none
    | .error _ => none) x

theorem runHist_reach {A : Area} {d₀ : Disk} {ok : State × Ghost → Act → Prop}
    [∀ x a, Decidable (ok x a)] {acts : List Act} {x y : State × Ghost}
    (h : ((histories A d₀).restrict ok).Reach x) (hr : runHist A ok x acts = some y) :
    ((histories A d₀).restrict ok).Reach y := by
  induction acts generalizing x with
  | nil =>
    cases hr
    exact h
  | cons a acts ih =>
    unfold runHist at hr
    rw [foldlM_cons] at hr
    obtain ⟨z, hz, hr⟩ := Option.bind_eq_some_iff.1 hr
    have hstep : ((histories A d₀).restrict ok).step x a z := by
      split at hz
      · next s' hs =>
        split at hz
        · next hok =>
          cases hz
          exact ⟨hok, hs, rfl⟩
        · cases hz
      · cases hz
    exact ih (.step h hstep) hr

/-- A run that can be computed. -/
theorem exists_run (A : Area) (d₀ : Disk) (ok : State × Ghost → Act → Prop)
    [∀ x a, Decidable (ok x a)] (acts : List Act) {P : State × Ghost → Bool}
    (h : (runHist A ok (.boot d₀, {}) acts).any P = true) :
    ∃ x, ((histories A d₀).restrict ok).Reach x ∧ P x = true := by
  obtain ⟨x, hx, hP⟩ := (Option.any_eq_true _ _).1 h
  have h0 : ((histories A d₀).restrict ok).Reach (.boot d₀, {}) := .init ⟨rfl, rfl⟩
  exact ⟨x, runHist_reach h0 hx, hP⟩

end Xv6.Log
