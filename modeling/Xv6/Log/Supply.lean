import Xv6.Log.Space

/-!
# The supply of buffers

There are as many buffers as the log has entries.  `bget` recycles a buffer that nobody holds
and that is not dirty, and panics when there is none.  The dirty blocks of an open group commit
and the blocks that readers hold draw on the same `NBUF` buffers, and no one counts them:
`begin_op` admits operations as if there were no readers, and nothing holds readers back at all.
So `bget` panics exactly when a block is asked for that is not cached while `NBUF` buffers are
held or dirty, and 31 readers are enough for that.
-/

namespace Xv6.Log

/-! ## Who asks for which block -/

/-- The block that a step of `commit` or `recover_from_log` asks `bget` for. -/
def State.asksAt (A : Area) (s : State) : Pt → Option Nat
  | .readHead => some A.start
  | .top _ tail => if tail < s.lh.length then some (A.start + tail + 1) else none
  | .gotLog _ tail _ => s.lh[tail]?
  | .head _ => some A.start
  | _ => none

/-- The block that a step asks `bget` for. -/
def State.asks (A : Area) (s : State) : Act → Option Nat
  | .bread t b => if (s.pc t = .user ∨ s.pc t = .op) ∧ s.up then some b else none
  | .next t =>
    match s.pc t with
    | .commit p => s.asksAt A p
    | _ => none
  | _ => none

/-- A reader outside of operations holds at most one buffer. -/
def oneBuffer (s : State) : Act → Prop
  | .bread t _ => s.pc t = .user → ∀ i, (s.cache.buf i).busy ≠ some t
  | _ => True

instance (s : State) (a : Act) : Decidable (oneBuffer s a) := by
  induction a using Act.casesOn <;> dsimp only [oneBuffer] <;> infer_instance

/-- The runs whose operations and readers keep to their limits. -/
def supplied (d₀ : Disk) : System (State × Ghost) Act :=
  (histories .mkfs d₀).restrict fun x a => opLimit x a ∧ oneBuffer x.1 a

/-! ## When `bget` panics -/

/-- How many buffers are held by processes. -/
def Bcache.held (c : Bcache) : Nat := (Finset.univ.filter fun i => (c.buf i).busy ≠ none).card

/-- How many buffers that nobody holds have changes that are not committed. -/
def Bcache.pinned (c : Bcache) : Nat :=
  (Finset.univ.filter fun i => (c.buf i).busy = none ∧ (c.buf i).dirty = true).card

section
variable {c : Bcache} {d : Disk} {t : Slot} {b : Nat}

theorem Bcache.victim_eq_none (h : c.WF) : c.victim = none ↔ c.held + c.pinned = NBUF := by
  have hdisj : Disjoint (Finset.univ.filter fun i => (c.buf i).busy ≠ none)
      (Finset.univ.filter fun i => (c.buf i).busy = none ∧ (c.buf i).dirty = true) := by
    rw [Finset.disjoint_filter]
    exact fun i _ h1 h2 => h1 h2.1
  have hcard : c.held + c.pinned = (Finset.univ.filter fun i =>
      (c.buf i).busy ≠ none ∨ (c.buf i).busy = none ∧ (c.buf i).dirty = true).card := by
    rw [Finset.filter_or, Finset.card_union_of_disjoint hdisj]
    rfl
  have hall : c.held + c.pinned = NBUF ↔
      ∀ i, (c.buf i).busy ≠ none ∨ (c.buf i).busy = none ∧ (c.buf i).dirty = true := by
    rw [hcard]
    constructor
    · intro he i
      have hi := Finset.mem_univ i
      rw [← Finset.eq_univ_of_card _ (he.trans (Fintype.card_fin NBUF).symm)] at hi
      exact (Finset.mem_filter.1 hi).2
    · intro hi
      rw [Finset.filter_true_of_mem fun i _ => hi i]
      exact Finset.card_fin NBUF
  rw [hall]
  unfold Bcache.victim
  rw [List.find?_eq_none]
  constructor
  · intro hv i
    have hi := hv i (List.mem_reverse.2 (h.mem i))
    rw [decide_eq_true_eq, not_and] at hi
    by_cases hbusy : (c.buf i).busy = none
    · exact .inr ⟨hbusy, Bool.not_eq_false _ ▸ hi hbusy⟩
    · exact .inl hbusy
  · intro hi i _
    rw [decide_eq_true_eq]
    rintro ⟨hbusy, hdirty⟩
    rcases hi i with h1 | ⟨-, h1⟩
    · exact h1 hbusy
    · rw [hdirty] at h1
      cases h1

theorem Bcache.bget_panics : c.bget t b = .error (.panics .noBuffers) ↔
    c.lookup b = none ∧ c.victim = none := by
  unfold Bcache.bget
  cases c.lookup b with
  | some i =>
    constructor
    · intro h
      dsimp only at h
      split at h <;> cases h
    · rintro ⟨h, -⟩
      cases h
  | none =>
    cases c.victim with
    | some i => exact ⟨nofun, fun h => nomatch h.2⟩
    | none => exact ⟨fun _ => ⟨rfl, rfl⟩, fun _ => rfl⟩

/-- Reading the block from the disk cannot fail. -/
theorem Bcache.bread_panics : c.bread d t b = .error (.panics .noBuffers) ↔
    c.lookup b = none ∧ c.victim = none := by
  rw [← Bcache.bget_panics (t := t)]
  unfold Bcache.bread
  cases c.bget t b with
  | error e => exact ⟨fun h => congrArg Except.error (Except.error.inj h), id⟩
  | ok r =>
    refine ⟨fun h => ?_, nofun⟩
    change (if _ then _ else _) = _ at h
    split at h <;> cases h

theorem Bcache.brelse_ne_noBuffers {i : BufId} : c.brelse i ≠ .error (.panics .noBuffers) := by
  unfold Bcache.brelse
  split <;> nofun

theorem Bcache.bwrite_ne_noBuffers {i : BufId} :
    c.bwrite d i ≠ .error (.panics .noBuffers) := by
  unfold Bcache.bwrite
  split <;> nofun

end

/-- What comes after the only call that may stop. -/
theorem bind_pure_error {α β : Type} {x : Except Stop α} {f : α → β} {e : Stop} :
    (x >>= fun r => (pure (f r) : Except Stop β)) = .error e ↔ x = .error e := by
  cases x with
  | ok r => exact ⟨nofun, nofun⟩
  | error e' => exact ⟨fun h => congrArg Except.error (Except.error.inj h), fun h => h ▸ rfl⟩

/-- Both buffers of a copy are given back. -/
theorem brelse_both_ne_noBuffers {c : Bcache} {i j : BufId} (f : Bcache → State) :
    (c.brelse i >>= fun c => c.brelse j >>= fun c => (pure (f c) : Except Stop State)) ≠
      .error (.panics .noBuffers) := by
  intro h
  cases hi : c.brelse i with
  | error e =>
    rw [hi] at h
    exact Bcache.brelse_ne_noBuffers (hi.trans (congrArg Except.error (Except.error.inj h)))
  | ok c' =>
    rw [hi] at h
    exact Bcache.brelse_ne_noBuffers (bind_pure_error.1 h)

section
variable {A : Area} {s : State} {t : Slot}

theorem State.commitStep_panics {p : Pt} :
    s.commitStep A t p = .error (.panics .noBuffers) ↔
      ∃ b, s.asksAt A p = some b ∧ s.cache.lookup b = none ∧ s.cache.victim = none := by
  have hread : ∀ {b : Nat} {f : BufId × Bcache → State},
      (s.cache.bread s.disk t b >>= fun r => (pure (f r) : Except Stop State)) =
        .error (.panics .noBuffers) ↔
      ∃ b', some b = some b' ∧ s.cache.lookup b' = none ∧ s.cache.victim = none := by
    intro b f
    rw [bind_pure_error, Bcache.bread_panics]
    exact ⟨fun h => ⟨b, rfl, h⟩, fun ⟨b', hb, h⟩ => Option.some.inj hb ▸ h⟩
  have hnone : ∀ {x : Except Stop State}, x ≠ .error (.panics .noBuffers) →
      (x = .error (.panics .noBuffers) ↔
        ∃ b, none = some b ∧ s.cache.lookup b = none ∧ s.cache.victim = none) :=
    fun hx => ⟨fun h => absurd h hx, nofun⟩
  cases p with
  | readHead => exact hread
  | readHeadGot i => exact hnone (mt bind_pure_error.1 Bcache.brelse_ne_noBuffers)
  | top dir tail =>
    unfold State.commitStep State.asksAt
    dsimp only
    by_cases htail : tail < s.lh.length
    · rw [if_pos htail, if_pos htail]
      exact hread
    · rw [if_neg htail, if_neg htail]
      cases dir <;> exact hnone nofun
  | gotLog dir tail i =>
    unfold State.commitStep State.asksAt
    dsimp only
    cases s.lh[tail]? with
    | some b => exact hread
    | none => exact hnone nofun
  | gotBoth dir tail i j =>
    cases dir <;> exact hnone (mt bind_pure_error.1 Bcache.bwrite_ne_noBuffers)
  | copied dir tail i j =>
    cases dir <;> exact hnone (brelse_both_ne_noBuffers _)
  | head erase => exact hread
  | headGot erase i => exact hnone (mt bind_pure_error.1 Bcache.bwrite_ne_noBuffers)
  | headDone erase i => exact hnone (mt bind_pure_error.1 Bcache.brelse_ne_noBuffers)
  | finish => exact hnone nofun

theorem State.exec_panics (hwf : s.cache.WF) {a : Act} :
    s.exec A a = .error (.panics .noBuffers) ↔
      ∃ b, s.asks A a = some b ∧ s.cache.lookup b = none ∧
        s.cache.held + s.cache.pinned = NBUF := by
  rw [← Bcache.victim_eq_none hwf]
  have hnone : ∀ {x : Except Stop State}, x ≠ .error (.panics .noBuffers) →
      (x = .error (.panics .noBuffers) ↔
        ∃ b, none = some b ∧ s.cache.lookup b = none ∧ s.cache.victim = none) :=
    fun hx => ⟨fun h => absurd h hx, nofun⟩
  cases a with
  | bread t b =>
    show s.bread t b = _ ↔ _
    unfold State.bread State.asks
    dsimp only
    by_cases hpc : (s.pc t = .user ∨ s.pc t = .op) ∧ s.up
    · rw [if_pos hpc, if_pos hpc]
      refine (bind_pure_error (x := s.cache.bread s.disk t b)
        (f := fun r => { s with cache := r.2 })).trans (Bcache.bread_panics.trans ?_)
      exact ⟨fun h => ⟨b, rfl, h⟩, fun ⟨b', hb, h⟩ => Option.some.inj hb ▸ h⟩
    · rw [if_neg hpc, if_neg hpc]
      exact hnone nofun
  | next t =>
    show s.next A t = _ ↔ _
    unfold State.next State.asks
    dsimp only
    cases s.pc t with
    | commit p => exact State.commitStep_panics
    | user => exact hnone nofun
    | op => exact hnone nofun
    | stored i => exact hnone nofun
    | checked i => exact hnone nofun
  | brelse t i =>
    refine hnone ?_
    show s.brelse t i ≠ _
    unfold State.brelse
    split
    · exact mt bind_pure_error.1 Bcache.brelse_ne_noBuffers
    · nofun
  | beginOp t =>
    refine hnone ?_
    show s.beginOp t ≠ _
    unfold State.beginOp
    split_ifs <;> nofun
  | store t i v =>
    refine hnone ?_
    show s.store A t i v ≠ _
    unfold State.store
    split <;> nofun
  | logCheck t =>
    refine hnone ?_
    show s.logCheck A t ≠ _
    unfold State.logCheck
    split
    · split_ifs <;> nofun
    · nofun
  | logAppend t =>
    refine hnone ?_
    show s.logAppend t ≠ _
    unfold State.logAppend
    split
    · split <;> nofun
    · nofun
  | endOp t =>
    refine hnone ?_
    show s.endOp t ≠ _
    unfold State.endOp
    split_ifs <;> nofun
  | crash => exact hnone nofun

end

/-! ## Whole runs -/

end Xv6.Log
