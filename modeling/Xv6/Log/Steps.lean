import Xv6.Lib.Post
import Xv6.Log.Invariant

/-!
# Every step keeps the invariant

One lemma for each action.  Readers and operations change the cache and their own
place only; the points of `commit` and `recover_from_log` go through `Inv.move`.
-/

namespace Xv6.Log

open Function List

variable {A : Area} {s s' : State} {ph : Phase} {dur mem : Disk} {t : Slot} {p : Pt} {i : BufId}
  {b k : Nat} {dir : Dir} {j : BufId}

/-! ## What the phases look at -/

theorem Logging.congr (h : Logging A s mem k) (hd : s'.disk = s.disk) (hl : s'.lh = s.lh)
    (hu : s'.up = s.up) : Logging A s' mem k := by
  obtain ⟨d, c, lh, o, cm, pc, up⟩ := s
  dsimp only at hd hl hu
  subst hd hl hu
  exact ⟨h.up, h.header, h.rest, h.le, h.copied⟩

theorem Loop.congr (h : Loop A s dur mem dir k) (hd : s'.disk = s.disk) (hl : s'.lh = s.lh)
    (hu : s'.up = s.up) : Loop A s' dur mem dir k := by
  cases dir with
  | toLog => exact Logging.congr h hd hl hu
  | toHome =>
    obtain ⟨d, c, lh, o, cm, pc, up⟩ := s
    dsimp only at hd hl
    subst hd hl
    exact ⟨h.header, h.view, h.le, h.copied⟩

theorem Installed.congr (h : Installed A s dur mem) (hd : s'.disk = s.disk) (hl : s'.lh = s.lh) :
    Installed A s' dur mem := by
  obtain ⟨d, c, lh, o, cm, pc, up⟩ := s
  dsimp only at hd hl
  subst hd hl
  exact ⟨h.lh, h.durable, h.view⟩

theorem PtOk.congr (h : PtOk A s dur mem t p) (hd : s'.disk = s.disk) (hl : s'.lh = s.lh)
    (hu : s'.up = s.up) (hh : ∀ i b, s.Held t i b → s'.Held t i b) : PtOk A s' dur mem t p := by
  cases p with
  | readHead => exact ⟨hu ▸ h.1, h.2⟩
  | readHeadGot i => exact ⟨hu ▸ h.1, h.2.1, hh _ _ h.2.2⟩
  | top dir k => exact ⟨Loop.congr h.1 hd hl hu, hl ▸ h.2⟩
  | gotLog dir k i => exact ⟨Loop.congr h.1 hd hl hu, hl ▸ h.2.1, hl ▸ h.2.2.1, hh _ _ h.2.2.2⟩
  | gotBoth dir k i j | copied dir k i j =>
    obtain ⟨h1, h2, h3, b, hb, hj⟩ := h
    exact ⟨Loop.congr h1 hd hl hu, hl ▸ h2, hh _ _ h3, b, hl ▸ hb, hh _ _ hj⟩
  | head erase =>
    cases erase with
    | false => exact ⟨hl ▸ Logging.congr h.1 hd hl hu, hl ▸ h.2⟩
    | true => exact Installed.congr h hd hl
  | headGot erase i =>
    cases erase with
    | false => exact ⟨hl ▸ Logging.congr h.1 hd hl hu, hl ▸ h.2.1, hh _ _ h.2.2⟩
    | true => exact ⟨Installed.congr h.1 hd hl, hh _ _ h.2⟩
  | headDone erase i =>
    cases erase with
    | false => exact ⟨hu ▸ h.1, (show Loop A s dur mem .toHome 0 from h.2.1).congr hd hl hu, hh _ _ h.2.2⟩
    | true => exact ⟨Installed.congr h.1 hd hl, hd ▸ h.2.1, hh _ _ h.2.2⟩
  | finish => exact ⟨Installed.congr h.1 hd hl, hd ▸ h.2⟩

theorem Held.of_buf_eq {u : Slot} (h : s.Held u j b) (hj : s'.cache.buf j = s.cache.buf j) :
    s'.Held u j b :=
  ⟨hj ▸ h.1, hj ▸ h.2⟩

theorem Held.modify {u : Slot} {f : Buf → Buf} (h : s.Held u j b) (hj : j ≠ i)
    (hc : s'.cache = s.cache.modify i f) : s'.Held u j b :=
  Held.of_buf_eq h (by rw [hc, Bcache.modify_buf_of_ne f hj])

/-- Two processes do not hold one buffer. -/
theorem Held.ne {u : Slot} (h : s.Held u j b) (hi : (s.cache.buf i).busy = some t) (hut : u ≠ t) :
    j ≠ i := by
  rintro rfl
  exact hut (Option.some.inj (h.2.symm.trans hi))

/-! ## Readers and operations -/

variable {c : Bcache}

namespace Inv

/-- A process outside of `log_write` and `commit` changes buffers that no other holds. -/
theorem setCache (h : Inv A s ph dur mem) (ht : s.pc t = .user ∨ s.pc t = .op)
    (hc : CacheInv c s.disk mem (s.pend ph) s.Mod)
    (hk : ∀ u j b, u ≠ t → s.Held u j b → { s with cache := c }.Held u j b) :
    Inv A { s with cache := c } ph dur mem := by
  refine ⟨?_, h.count, fun u j hu => ?_, ?_, h.nodup, h.home, h.disk⟩
  · cases ph with
    | none => exact ⟨h.phase.1.congr rfl rfl rfl, h.phase.2⟩
    | some up =>
      obtain ⟨u, p⟩ := up
      have hpc := h.phase.2.2.2.1
      have hut : u ≠ t := by
        rintro rfl
        rw [hpc] at ht
        rcases ht with ht | ht <;> cases ht
      exact ⟨PtOk.congr h.phase.1 rfl rfl rfl fun j b => hk u j b hut, h.phase.2⟩
  · obtain ⟨b, hb, hh⟩ := h.mods u j hu
    refine ⟨b, hb, hk u j b ?_ hh⟩
    rintro rfl
    change s.pc u = _ ∨ s.pc u = _ at hu
    rcases ht with ht | ht <;> rw [ht] at hu <;> rcases hu with hu | hu <;> cases hu
  · cases ph <;> exact hc

theorem bread (h : Inv A s ph dur mem) (hs : s.bread t b = .ok s') : Inv A s' ph dur mem := by
  unfold State.bread at hs
  split at hs
  · next ht =>
    obtain ⟨⟨i, c⟩, hc, hs⟩ := bind_ok hs
    obtain rfl := Except.ok.inj hs
    obtain ⟨hi, -, -, hk⟩ := h.cache.bread hc
    refine h.setCache ht.1 hi fun u j b _ hh => Held.of_buf_eq hh (hk j ?_)
    rw [hh.2]
    exact Option.some_ne_none _
  · cases hs

theorem brelse (h : Inv A s ph dur mem) (hs : s.brelse t i = .ok s') : Inv A s' ph dur mem := by
  unfold State.brelse at hs
  split at hs
  · next ht =>
    obtain ⟨c, hc, hs⟩ := bind_ok hs
    obtain rfl := Except.ok.inj hs
    obtain ⟨hi, hk, -⟩ := h.cache.brelse hc
    exact h.setCache ht.1 hi fun u j b hut hh => Held.of_buf_eq hh (hk j (Held.ne hh ht.2 hut))
  · cases hs

/-- A process in no operation, or not in `log_write`, changes its place. -/
theorem setPc_none {mem' : Disk} {q : Pc} (h : Inv A s none dur mem) (hq : ∀ p, q ≠ .commit p)
    (hpc : s'.pc = update s.pc t q) (hd : s'.disk = s.disk)
    (hcm : s'.committing = s.committing) (ho : s'.outstanding = s'.ops)
    (hlog : Logging A s' mem' 0) (hlh : s'.lh.Nodup ∧ ∀ b ∈ s'.lh, A.Home b)
    (hc : CacheInv s'.cache s'.disk mem' s'.lh s'.Mod)
    (hk : ∀ u j b, u ≠ t → s.Held u j b → s'.Held u j b)
    (ht : ∀ j, q = .stored j ∨ q = .checked j → ∃ b, A.Home b ∧ s'.Held t j b) :
    Inv A s' none dur mem' := by
  refine ⟨⟨hlog, hcm ▸ h.phase.2.1, fun u p hp => ?_⟩, ho, fun u j hj => ?_, hc, hlh.1, hlh.2,
    hd ▸ h.disk⟩
  · rw [hpc] at hp
    by_cases he : u = t
    · subst he
      rw [update_self] at hp
      exact hq p hp
    · rw [update_of_ne he] at hp
      exact h.phase.2.2 u p hp
  · rw [hpc] at hj
    by_cases he : u = t
    · subst he
      rw [update_self] at hj
      exact ht j hj
    · rw [update_of_ne he] at hj
      obtain ⟨b, hb, hh⟩ := h.mods u j hj
      exact ⟨b, hb, hk u j b he hh⟩

end Inv

/-- The buffers that others have changed stay so. -/
theorem Mod.setPc {q : Pc} (hpc : s'.pc = update s.pc t q)
    (ht : s.pc t = .stored j ∨ s.pc t = .checked j → q = .stored j ∨ q = .checked j) (hm : s.Mod j) :
    s'.Mod j := by
  obtain ⟨u, hu⟩ := hm
  refine ⟨u, ?_⟩
  rw [hpc]
  by_cases he : u = t
  · subst he
    rw [update_self]
    exact ht hu
  · rw [update_of_ne he]
    exact hu

namespace Inv

theorem beginOp (h : Inv A s ph dur mem) (hs : s.beginOp t = .ok s') :
    Inv A s' ph dur mem := by
  unfold State.beginOp at hs
  split at hs
  · next ht =>
    split at hs
    · cases hs
    · next hcm =>
      split at hs
      · cases hs
      · obtain rfl := Except.ok.inj hs
        have hph : ph = none := by
          cases ph with
          | none => rfl
          | some tp =>
            have := h.phase.2.1
            rw [ht.2] at this
            exact absurd this hcm
        subst hph
        refine h.setPc_none (t := t) (q := .op) (by simp) rfl rfl rfl ?_
          (h.phase.1.congr rfl rfl rfl) ⟨h.nodup, h.home⟩
          (h.cache.mono fun j => Mod.setPc rfl (by simp [ht.1])) (fun _ _ _ _ => id) (by simp)
        change s.outstanding + 1 = (s.setPc t .op).ops
        rw [ops_enter (by rw [ht.1]; rfl) rfl, h.count]
  · cases hs

theorem store {v : Block} (h : Inv A s ph dur mem) (hs : s.store A t i v = .ok s') :
    Inv A s' ph dur mem := by
  unfold State.store at hs
  split at hs
  · next ht =>
    obtain ⟨ht, hbusy, b, hb, hhome⟩ := ht
    obtain rfl := Except.ok.inj hs
    obtain rfl := h.phase_none (t := t) (by rw [ht]; rfl)
    have hmod : (({ s with cache := s.cache.modify i fun u => { u with data := v } }).setPc t
        (.stored i)).Mod i := ⟨t, .inl (update_self ..)⟩
    refine h.setPc_none (t := t) (q := .stored i) (by simp) rfl rfl rfl ?_
      (h.phase.1.congr rfl rfl rfl) ⟨h.nodup, h.home⟩ ?_ (fun u j x hut hh => ?_) fun j hj => ?_
    · exact h.count.trans (ops_setPc (by rw [ht]; rfl)).symm
    · exact h.cache.modify (f := fun u => { u with data := v }) hb hb (.inl rfl)
        (fun _ _ => Iff.rfl) (fun _ _ => rfl) (fun _ _ => rfl)
        (fun j hj => Mod.setPc rfl (by simp [ht])) (h.cache.dirty_iff hb)
        (fun _ hm => absurd hmod hm) (fun _ hm => absurd hmod hm)
    · exact Held.modify (f := fun u => { u with data := v }) hh (Held.ne hh hbusy hut) rfl
    · obtain rfl : i = j := by simpa using hj
      refine ⟨b, hhome, ?_⟩
      unfold State.Held State.setPc
      rw [Bcache.modify_buf_self]
      exact ⟨hb, hbusy⟩
  · cases hs

theorem logCheck (h : Inv A s ph dur mem) (hs : s.logCheck A t = .ok s') :
    Inv A s' ph dur mem := by
  unfold State.logCheck at hs
  split at hs
  · next i ht =>
    split at hs
    · cases hs
    · split at hs
      · cases hs
      · obtain rfl := Except.ok.inj hs
        obtain rfl := h.phase_none (t := t) (by rw [ht]; rfl)
        refine h.setPc_none (t := t) (q := .checked i) (by simp) rfl rfl rfl ?_
          (h.phase.1.congr rfl rfl rfl) ⟨h.nodup, h.home⟩
          (h.cache.mono fun j => Mod.setPc rfl (by simp [ht])) (fun _ _ _ _ => id) fun j hj => ?_
        · exact h.count.trans (ops_setPc (by rw [ht]; rfl)).symm
        · obtain rfl : i = j := by simpa using hj
          exact h.mods t i (.inl ht)
  · cases hs

end Inv

theorem mem_absorb {lh : List Nat} {x : Nat} : x ∈ State.absorb lh b ↔ x ∈ lh ∨ x = b := by
  unfold State.absorb
  split
  · next hb =>
    constructor
    · exact .inl
    · rintro (hx | rfl)
      · exact hx
      · exact hb
  · simp

theorem nodup_absorb {lh : List Nat} (h : lh.Nodup) : (State.absorb lh b).Nodup := by
  unfold State.absorb
  split
  · exact h
  · next hb =>
    rw [← concat_eq_append]
    exact h.concat hb

namespace Inv

/-- The end of `log_write`: the operations' contents of the block are now those of the buffer. -/
theorem logAppend (h : Inv A s ph dur mem) (hs : s.logAppend t = .ok s') :
    ∃ i b, s.pc t = .checked i ∧ (s.cache.buf i).blockno = some b ∧ ph = none ∧
      s'.lh = State.absorb s.lh b ∧ Inv A s' ph dur (update mem b (s.cache.buf i).data) := by
  unfold State.logAppend at hs
  split at hs
  · next i ht =>
    split at hs
    · next b hb =>
      obtain rfl := Except.ok.inj hs
      obtain rfl := h.phase_none (t := t) (by rw [ht]; rfl)
      obtain ⟨b', hhome, hb', hbusy⟩ := h.mods t i (.inr ht)
      obtain rfl : b = b' := Option.some.inj (hb.symm.trans hb')
      refine ⟨i, b, ht, hb, rfl, rfl, h.setPc_none (t := t) (q := .op) (by simp) rfl rfl rfl ?_ ?_
        ⟨nodup_absorb h.nodup, fun x hx => ?_⟩ ?_ (fun u j x hut hh => ?_) (by simp)⟩
      · exact h.count.trans (ops_setPc (by rw [ht]; rfl)).symm
      · refine ⟨h.phase.1.up, h.phase.1.header, fun x hx hn => ?_, Nat.zero_le _,
          fun m x hm => absurd hm (Nat.not_lt_zero m)⟩
        have hn : ¬ (x ∈ s.lh ∨ x = b) := fun hm => hn (mem_absorb.2 hm)
        rw [not_or] at hn
        rw [update_of_ne hn.2]
        exact h.phase.1.rest x hx hn.1
      · rcases mem_absorb.1 hx with hx | rfl
        · exact h.home x hx
        · exact hhome
      · refine h.cache.modify (f := fun u => { u with dirty := true }) hb hb (.inl rfl)
          (fun x hx => ?_) (fun _ _ => rfl) (fun x hx => update_of_ne hx ..)
          (fun j hj => Mod.setPc rfl (by simp [ht, Ne.symm hj])) ?_ (fun hd => by cases hd)
          (fun _ _ => (update_self b (s.cache.buf i).data mem).symm)
        · exact mem_absorb.trans (or_iff_left hx)
        · exact iff_of_true rfl (mem_absorb.2 (.inr rfl))
      · exact Held.modify (f := fun u => { u with dirty := true }) hh (Held.ne hh hbusy hut) rfl
    · cases hs
  · cases hs

variable {p' : Pt}

/-- From one point of `commit` or `recover_from_log`, or from its caller, to the next. -/
theorem move {dur' mem' : Disk} (ho : ∀ u, u ≠ t → (s.pc u).inOp = false)
    (hu : ∀ u q, s.pc u = .commit q → u = t) (hpc : s'.pc = update s.pc t (.commit p'))
    (hz : s'.outstanding = 0) (hcm : s'.committing = s'.up)
    (hc : CacheInv s'.cache s'.disk mem' (p'.pend s'.up s'.lh) fun _ => False)
    (hn : s'.lh.Nodup) (hh : ∀ b ∈ s'.lh, A.Home b) (hd : Recoverable A s'.disk dur')
    (hp : PtOk A s' dur' mem' t p') : Inv A s' (some (t, p')) dur' mem' := by
  have hself : s'.pc t = .commit p' := by rw [hpc, update_self]
  have hother : ∀ u, u ≠ t → s'.pc u = s.pc u := fun u hne => by
    rw [hpc, update_of_ne hne]
  have hop : ∀ u, (s'.pc u).inOp = false := by
    intro u
    by_cases he : u = t
    · subst he
      rw [hself]
      rfl
    · rw [hother u he]
      exact ho u he
  refine ⟨⟨hp, hcm, hz, hself, fun u q hq => ?_⟩, ?_, fun u j hj => ?_, hc.mono fun _ => False.elim,
    hn, hh, hd⟩
  · by_contra he
    rw [hother u he] at hq
    exact he (hu u q hq)
  · rw [hz]
    exact (Finset.card_eq_zero.2 (Finset.filter_eq_empty_iff.2 fun u _ => by simp [hop u])).symm
  · have := hop u
    rcases hj with hj | hj <;> rw [hj] at this <;> cases this

/-- The last `end_op` goes on to commit. -/
theorem endOp (h : Inv A s ph dur mem) (hs : s.endOp t = .ok s') :
    ph = none ∧ ∃ ph', Inv A s' ph' dur mem := by
  unfold State.endOp at hs
  split at hs
  · next ht =>
    split at hs
    · cases hs
    · obtain rfl := h.phase_none (t := t) (by rw [ht]; rfl)
      have hops : ∀ q : Pc, q.inOp = false → (s.setPc t q).ops = s.outstanding - 1 := by
        intro q hq
        have := ops_leave (s := s) (t := t) (by rw [ht]; rfl) hq
        have := h.count
        omega
      refine ⟨rfl, ?_⟩
      split at hs
      · next hz =>
        obtain rfl := Except.ok.inj hs
        have hone : (s.setPc t .user).ops = 0 := by rw [hops _ rfl, hz]
        have hother : ∀ u, u ≠ t → (s.pc u).inOp = false := by
          intro u hu
          have := inOp_of_ops hone u
          rwa [show (s.setPc t .user).pc u = s.pc u from update_of_ne hu ..] at this
        have hcache : CacheInv s.cache s.disk mem s.lh fun _ => False := by
          refine h.cache.mono fun j hj => ?_
          obtain ⟨u, hu⟩ := hj
          by_cases he : u = t
          · subst he
            rw [ht] at hu
            rcases hu with hu | hu <;> cases hu
          · have := hother u he
            rcases hu with hu | hu <;> rw [hu] at this <;> cases this
        refine ⟨_, move hother (fun u q hq => absurd hq (h.phase.2.2 u q)) rfl rfl
          h.phase.1.up.symm ?_ h.nodup h.home h.disk ?_⟩
        · split
          · exact hcache
          · next hl =>
            have hl : s.lh = [] := by simpa using hl
            rw [hl] at hcache
            exact hcache
        · split
          · exact ⟨h.phase.1.congr rfl rfl rfl, fun hk => absurd hk (Nat.lt_irrefl 0)⟩
          · next hl =>
            have hl : s.lh = [] := by simpa using hl
            refine ⟨⟨hl, fun b hb => ?_, fun b hb => ?_⟩, h.phase.1.header⟩
            · exact h.disk.rest b hb (by rw [h.phase.1.header]; exact not_mem_nil)
            · exact h.phase.1.rest b hb (by rw [hl]; exact not_mem_nil)
      · obtain rfl := Except.ok.inj hs
        refine ⟨none, h.setPc_none (t := t) (q := .user) (by simp) rfl rfl rfl (hops _ rfl).symm
          (h.phase.1.congr rfl rfl rfl) ⟨h.nodup, h.home⟩
          (h.cache.mono fun j => Mod.setPc rfl (by simp [ht])) (fun _ _ _ _ => id) (by simp)⟩
  · cases hs

/-! ## `commit` and `recover_from_log` -/

section
variable (h : Inv A s (some (t, p)) dur mem)
include h

theorem cache_noMod : CacheInv s.cache s.disk mem (p.pend s.up s.lh) fun _ => False :=
  h.cache.mono fun i hi => h.noMod i hi

/-- `move` between two points of one process. -/
theorem step {dur' mem' : Disk}
    (hpc : s'.pc = update s.pc t (.commit p')) (ho : s'.outstanding = s.outstanding)
    (hcm : s'.committing = s.committing) (hu : s'.up = s.up)
    (hc : CacheInv s'.cache s'.disk mem' (p'.pend s'.up s'.lh) fun _ => False)
    (hn : s'.lh.Nodup) (hh : ∀ b ∈ s'.lh, A.Home b) (hd : Recoverable A s'.disk dur')
    (hp : PtOk A s' dur' mem' t p') : Inv A s' (some (t, p')) dur' mem' :=
  move (fun u _ => h.noOps u) h.phase.2.2.2.2 hpc (ho.trans h.phase.2.2.1)
    (by rw [hcm, hu, h.phase.2.1]) hc hn hh hd hp

/-- The process reads a block. -/
theorem step_bread
    (hc : s.cache.bread s.disk t b = .ok (i, c)) (hpend : p'.pend s.up s.lh = p.pend s.up s.lh)
    (hp : ∀ s' : State, s'.disk = s.disk → s'.lh = s.lh → s'.up = s.up → s'.cache = c →
      s'.Held t i b → (∀ j x, s.Held t j x → s'.Held t j x) → PtOk A s' dur mem t p') :
    Inv A ({ s with cache := c }.setPc t (.commit p')) (some (t, p')) dur mem := by
  obtain ⟨hi, hb, hbusy, hk⟩ := h.cache_noMod.bread hc
  refine h.step rfl rfl rfl rfl (hpend ▸ hi) h.nodup h.home h.disk ?_
  refine hp _ rfl rfl rfl rfl ⟨hb, hbusy⟩ fun j x hj => Held.of_buf_eq hj (hk j ?_)
  rw [hj.2]
  exact Option.some_ne_none _

theorem pend_subset : p.pend s.up s.lh ⊆ s.lh := by
  have loop : ∀ dir k, loopPend s.up s.lh dir k ⊆ s.lh := by
    intro dir k
    cases dir with
    | toLog => exact List.Subset.refl _
    | toHome =>
      change (if s.up = true then s.lh.drop k else []) ⊆ s.lh
      split
      · exact drop_subset k s.lh
      · exact nil_subset _
  have erase : ∀ e : Bool, (if e = true then [] else s.lh) ⊆ s.lh := by
    intro e
    cases e with
    | false => exact List.Subset.refl _
    | true => exact nil_subset _
  cases p with
  | readHead | readHeadGot | finish => exact nil_subset _
  | top | gotLog | gotBoth | copied => exact loop _ _
  | head | headGot | headDone => exact erase _

/-- The header and the copies are not among the blocks to install. -/
theorem notMem_pend (hb : ¬ A.Home b) : b ∉ p.pend s.up s.lh :=
  fun hm => hb (h.home b (h.pend_subset hm))

/-- The process writes a block of the log area. -/
theorem step_write {dur' : Disk} {v : Block} {d : Disk}
    (hi : s.Held t i b) (hb : ¬ A.Home b)
    (hc : (s.cache.modify i fun u => { u with data := v }).bwrite s.disk i = .ok (d, c))
    (hpend : p'.pend s.up s.lh = p.pend s.up s.lh)
    (hd : Recoverable A (update s.disk b v) dur')
    (hp : ∀ s' : State, s'.disk = update s.disk b v → s'.lh = s.lh → s'.up = s.up →
      (∀ j x, s.Held t j x → s'.Held t j x) → PtOk A s' dur' mem t p') :
    Inv A ({ s with disk := d, cache := c }.setPc t (.commit p')) (some (t, p')) dur' mem := by
  have hsame : ∀ x, x ∈ p.pend s.up s.lh ↔ x ∈ p.pend s.up s.lh ∧ x ≠ b := fun x =>
    ⟨fun hx => ⟨hx, ne_of_mem_of_not_mem hx (h.notMem_pend hb)⟩, And.left⟩
  obtain ⟨hci, rfl, hk, hbi, hbusy⟩ := h.cache_noMod.bwrite hi.1 hsame hc
  refine h.step rfl rfl rfl rfl (hpend ▸ hci) h.nodup h.home hd
    (hp _ rfl rfl rfl fun j x hj => ?_)
  by_cases he : j = i
  · subst he
    exact ⟨hbi.trans (hi.1.symm.trans hj.1), hbusy.trans hj.2⟩
  · exact Held.of_buf_eq hj (hk j he)

end

theorem step_readHead (h : Inv A s (some (t, .readHead)) dur mem)
    (hs : s.commitStep A t .readHead = .ok s') : ∃ p', Inv A s' (some (t, p')) dur mem := by
  obtain ⟨⟨i, c⟩, hc, hs⟩ := bind_ok hs
  obtain rfl := Except.ok.inj hs
  exact ⟨_, h.step_bread hc rfl fun s' _ _ hu _ hi _ => ⟨hu ▸ h.phase.1.1, h.phase.1.2, hi⟩⟩

theorem step_readHeadGot (h : Inv A s (some (t, .readHeadGot i)) dur mem)
    (hs : s.commitStep A t (.readHeadGot i) = .ok s') : ∃ p', Inv A s' (some (t, p')) dur mem := by
  obtain ⟨c, hc, hs⟩ := bind_ok hs
  obtain rfl := Except.ok.inj hs
  obtain ⟨⟨hu, hv, hi⟩, -⟩ := h.phase
  have hdata : (s.cache.buf i).data = s.disk A.start :=
    h.cache_noMod.data_of_notMem hi.1 (h.notMem_pend A.not_home_start) id
  refine ⟨.top .toHome 0, h.step rfl rfl rfl rfl ?_ ?_ ?_ h.disk ⟨⟨?_, hv, Nat.zero_le _,
    fun m b hm => absurd hm (Nat.not_lt_zero m)⟩, fun hk => absurd hk (Nat.lt_irrefl 0)⟩⟩
  · have := (h.cache_noMod.brelse hc).1
    simpa [Pt.pend, loopPend, State.setPc, hu] using this
  · exact hdata ▸ h.disk.nodup
  · exact hdata ▸ h.disk.home
  · exact (congrArg Block.header hdata).symm

theorem loop_short (h : Inv A s (some (t, .top dir k)) dur mem)
    (hi : CacheInv s'.cache s.disk mem (loopPend s.up s.lh dir k) fun _ => False)
    (hb : s'.Held t i (A.start + k + 1)) : s.lh.length < NBUF := by
  obtain ⟨⟨hl, hk⟩, -⟩ := h.phase
  cases dir with
  | toHome => exact hl.header ▸ h.disk.short
  | toLog =>
    rcases Nat.eq_zero_or_pos k with rfl | hpos
    · -- the copy of the first block is in the log area, so its buffer is not one of the logged ones
      exact hi.length_lt h.nodup hb.1
        fun hm : A.start + 0 + 1 ∈ s.lh => A.not_home_copy (k := 0) (by decide) (h.home _ hm)
    · exact hk hpos

theorem step_top (h : Inv A s (some (t, .top dir k)) dur mem)
    (hs : s.commitStep A t (.top dir k) = .ok s') : ∃ p', Inv A s' (some (t, p')) dur mem := by
  unfold State.commitStep at hs
  dsimp only at hs
  obtain ⟨hl, hk⟩ := h.phase.1
  split at hs
  · next hlt =>
    obtain ⟨⟨i, c⟩, hc, hs⟩ := bind_ok hs
    obtain rfl := Except.ok.inj hs
    have hci := (h.cache_noMod.bread hc).1
    refine ⟨_, h.step_bread hc rfl fun s' hd hlh hu hc' hi _ =>
      ⟨hl.congr hd hlh hu, ?_, hlh ▸ hlt, hi⟩⟩
    rw [hlh]
    exact h.loop_short (hc' ▸ hci) hi
  · next hlt =>
    cases dir with
    | toLog =>
      obtain rfl := Except.ok.inj hs
      have hkl : k = s.lh.length := Nat.le_antisymm hl.le (Nat.le_of_not_lt hlt)
      refine ⟨.head false, h.step rfl rfl rfl rfl h.cache_noMod h.nodup h.home h.disk
        ⟨hkl ▸ Logging.congr hl rfl rfl rfl, ?_⟩⟩
      change s.lh.length < NBUF
      rcases Nat.eq_zero_or_pos k with h0 | hpos
      · rw [← hkl, h0]
        decide
      · exact hk hpos
    | toHome =>
      obtain rfl := Except.ok.inj hs
      have hkl : k = s.lh.length := Nat.le_antisymm hl.le (Nat.le_of_not_lt hlt)
      have hall : ∀ b, A.Home b → s.disk b = dur b := by
        intro b hb
        by_cases hm : b ∈ s.lh
        · obtain ⟨m, hm⟩ := mem_iff_getElem?.1 hm
          exact hl.copied m b (hkl ▸ (List.getElem?_eq_some_iff.1 hm).1) hm
        · exact h.disk.rest b hb (hl.header ▸ hm)
      refine ⟨.head true, h.step rfl rfl rfl rfl ?_ nodup_nil (fun b hb => absurd hb
        not_mem_nil) h.disk ⟨rfl, hall, fun b hb => hl.view ▸ hall b hb⟩⟩
      have := h.cache_noMod
      simpa [Pt.pend, loopPend, State.setPc, hkl] using this

theorem step_gotLog (h : Inv A s (some (t, .gotLog dir k i)) dur mem)
    (hs : s.commitStep A t (.gotLog dir k i) = .ok s') : ∃ p', Inv A s' (some (t, p')) dur mem := by
  unfold State.commitStep at hs
  dsimp only at hs
  obtain ⟨hl, hn, -, hi⟩ := h.phase.1
  split at hs
  · next b hb =>
    obtain ⟨⟨j, c⟩, hc, hs⟩ := bind_ok hs
    obtain rfl := Except.ok.inj hs
    exact ⟨_, h.step_bread hc rfl fun s' hd hlh hu _ hj hk =>
      ⟨hl.congr hd hlh hu, hlh ▸ hn, hk _ _ hi, b, hlh ▸ hb, hj⟩⟩
  · cases hs

theorem step_gotBoth_toLog (h : Inv A s (some (t, .gotBoth .toLog k i j)) dur mem)
    (hs : s.commitStep A t (.gotBoth .toLog k i j) = .ok s') :
    ∃ p', Inv A s' (some (t, p')) dur mem := by
  obtain ⟨⟨d, c⟩, hc, hs⟩ := bind_ok hs
  obtain rfl := Except.ok.inj hs
  obtain ⟨hl, hn, hi, b, hb, hj⟩ := h.phase.1
  have hkn : k < s.lh.length := (List.getElem?_eq_some_iff.1 hb).1
  have hcopy : ¬ A.Home (A.start + k + 1) := A.not_home_copy (by omega)
  have hdata : (s.cache.buf j).data = mem b :=
    h.cache_noMod.data_of_pend hj.1 (mem_of_getElem? hb) id
  refine ⟨.copied .toLog k i j, h.step_write hi hcopy hc rfl
    (h.disk.write_copy hl.header hcopy (by omega) _) fun s' hd hlh hu hk =>
    ⟨⟨hu ▸ hl.up, ?_, fun x hx hxn => ?_, hlh ▸ hkn, fun m x hm hx => ?_⟩, hlh ▸ hn, hk _ _ hi, b,
      hlh ▸ hb, hk _ _ hj⟩⟩
  · rw [hd, update_of_ne (by omega)]
    exact hl.header
  · rw [hd, update_of_ne (hx.ne_copy (by omega))]
    exact hl.rest x hx (hlh ▸ hxn)
  · rw [hlh] at hx
    rw [hd]
    by_cases he : m = k
    · subst he
      rw [update_self, hdata, Option.some.inj (hb.symm.trans hx)]
    · rw [update_of_ne (by omega)]
      exact hl.copied m x (by omega) hx

/-- One block is installed: the others that were to be installed still are. -/
theorem mem_loopPend_succ (h : Inv A s (some (t, p)) dur mem) (hb : s.lh[k]? = some b) (x : Nat) :
    x ∈ loopPend s.up s.lh .toHome (k + 1) ↔ x ∈ loopPend s.up s.lh .toHome k ∧ x ≠ b := by
  change x ∈ (if s.up = true then s.lh.drop (k + 1) else []) ↔
    x ∈ (if s.up = true then s.lh.drop k else []) ∧ x ≠ b
  split
  · obtain ⟨hk, rfl⟩ := List.getElem?_eq_some_iff.1 hb
    have hnd : (s.lh.drop k).Nodup := h.nodup.sublist (drop_sublist k _)
    rw [drop_eq_getElem_cons hk] at hnd ⊢
    rw [mem_cons]
    constructor
    · intro hx
      exact ⟨.inr hx, ne_of_mem_of_not_mem hx (nodup_cons.1 hnd).1⟩
    · rintro ⟨rfl | hx, hne⟩
      · exact absurd rfl hne
      · exact hx
  · simp

theorem step_gotBoth_toHome (h : Inv A s (some (t, .gotBoth .toHome k i j)) dur mem)
    (hs : s.commitStep A t (.gotBoth .toHome k i j) = .ok s') :
    ∃ p', Inv A s' (some (t, p')) dur mem := by
  obtain ⟨⟨d, c⟩, hc, hs⟩ := bind_ok hs
  obtain rfl := Except.ok.inj hs
  obtain ⟨hl, hn, hi, b, hb, hj⟩ := h.phase.1
  have hkn : k < s.lh.length := (List.getElem?_eq_some_iff.1 hb).1
  have hmem : b ∈ s.lh := mem_of_getElem? hb
  have hdata : (s.cache.buf i).data = dur b := by
    rw [h.cache_noMod.data_of_notMem hi.1 (h.notMem_pend (A.not_home_copy (by omega))) id]
    exact h.disk.copies k b (hl.header.symm ▸ hb)
  obtain ⟨hci, rfl, hk, hbj, hbusy⟩ :=
    h.cache_noMod.bwrite hj.1 (h.mem_loopPend_succ hb) hc
  have hheld : ∀ u x, s.Held t u x → ({ s with
      disk := update s.disk b (s.cache.buf i).data, cache := c }.setPc t
      (.commit (.copied .toHome k i j))).Held t u x := by
    intro u x hu
    by_cases he : u = j
    · subst he
      exact ⟨hbj.trans (hj.1.symm.trans hu.1), hbusy.trans hu.2⟩
    · exact Held.of_buf_eq hu (hk u he)
  refine ⟨.copied .toHome k i j, h.step rfl rfl rfl rfl hci h.nodup h.home
    (h.disk.write_home (hl.header.symm ▸ hmem) _) ⟨⟨?_, hl.view, hkn, fun m x hm hx => ?_⟩, hn,
    hheld _ _ hi, b, hb, hheld _ _ hj⟩⟩
  · change (update s.disk b _ A.start).header = s.lh
    rw [update_of_ne (h.home b hmem).ne_start.symm]
    exact hl.header
  · change update s.disk b _ x = dur x
    by_cases he : x = b
    · subst he
      rw [update_self, hdata]
    · rw [update_of_ne he]
      have hmk : m ≠ k := by
        rintro rfl
        exact he (Option.some.inj (hx.symm.trans hb))
      exact hl.copied m x (by omega) hx

theorem step_copied (h : Inv A s (some (t, .copied dir k i j)) dur mem)
    (hs : s.commitStep A t (.copied dir k i j) = .ok s') :
    ∃ p', Inv A s' (some (t, p')) dur mem := by
  obtain ⟨hl, hn, -⟩ := h.phase.1
  cases dir with
  | toLog | toHome =>
    obtain ⟨c, hc, hs⟩ := bind_ok hs
    obtain ⟨c', hc', hs⟩ := bind_ok hs
    obtain rfl := Except.ok.inj hs
    exact ⟨.top _ (k + 1), h.step rfl rfl rfl rfl ((h.cache_noMod.brelse hc).1.brelse hc').1 h.nodup
      h.home h.disk ⟨hl.congr rfl rfl rfl, fun _ => hn⟩⟩

theorem step_head {e : Bool} (h : Inv A s (some (t, .head e)) dur mem)
    (hs : s.commitStep A t (.head e) = .ok s') : ∃ p', Inv A s' (some (t, p')) dur mem := by
  obtain ⟨⟨i, c⟩, hc, hs⟩ := bind_ok hs
  obtain rfl := Except.ok.inj hs
  refine ⟨.headGot e i, h.step_bread hc rfl fun s' hd hlh hu _ hi _ => ?_⟩
  cases e with
  | false => exact ⟨hlh ▸ Logging.congr h.phase.1.1 hd hlh hu, hlh ▸ h.phase.1.2, hi⟩
  | true => exact ⟨Installed.congr h.phase.1 hd hlh, hi⟩

/-- The write of a header that names blocks: the transaction is committed. -/
theorem step_headGot_commit (h : Inv A s (some (t, .headGot false i)) dur mem)
    (hs : s.commitStep A t (.headGot false i) = .ok s') :
    ∃ p', Inv A s' (some (t, p')) mem mem := by
  obtain ⟨⟨d, c⟩, hc, hs⟩ := bind_ok hs
  obtain rfl := Except.ok.inj hs
  obtain ⟨hl, hn, hi⟩ := h.phase.1
  have hh : ((s.cache.buf i).data.putHeader s.lh).header = s.lh :=
    header_putHeader (Nat.lt_trans hn (by decide)) _
  refine ⟨.headDone false i, h.step_write hi A.not_home_start hc rfl
    (.write_head hn h.nodup h.home hh (fun m b hb => hl.copied m b ?_ hb) hl.rest)
    fun s' hd hlh hu hk => ⟨hu ▸ hl.up, ⟨?_, rfl, Nat.zero_le _,
      fun m b hm => absurd hm (Nat.not_lt_zero m)⟩, hk _ _ hi⟩⟩
  · exact (List.getElem?_eq_some_iff.1 hb).1
  · rw [hd, hlh, update_self, hh]

theorem step_headGot_erase (h : Inv A s (some (t, .headGot true i)) dur mem)
    (hs : s.commitStep A t (.headGot true i) = .ok s') :
    ∃ p', Inv A s' (some (t, p')) dur mem := by
  obtain ⟨⟨d, c⟩, hc, hs⟩ := bind_ok hs
  obtain rfl := Except.ok.inj hs
  obtain ⟨hl, hi⟩ := h.phase.1
  have hh : ((s.cache.buf i).data.putHeader s.lh).header = [] := by
    rw [hl.lh]
    exact header_putHeader (by decide) _
  have hhome : ∀ x, A.Home x → ∀ v, update s.disk A.start v x = s.disk x :=
    fun x hx v => update_of_ne hx.ne_start ..
  refine ⟨.headDone true i, h.step_write hi A.not_home_start hc rfl
    (.write_head (by decide) nodup_nil (fun b hb => absurd hb not_mem_nil) hh
      (fun m b hb => by cases hb) fun b hb _ => hl.durable b hb)
    fun s' hd hlh hu hk => ⟨⟨hlh ▸ hl.lh, fun b hb => ?_, fun b hb => ?_⟩, ?_, hk _ _ hi⟩⟩
  · rw [hd, hhome b hb]
    exact hl.durable b hb
  · rw [hd, hhome b hb]
    exact hl.view b hb
  · rw [hd, update_self, hh]

theorem step_headDone {e : Bool} (h : Inv A s (some (t, .headDone e i)) dur mem)
    (hs : s.commitStep A t (.headDone e i) = .ok s') : ∃ p', Inv A s' (some (t, p')) dur mem := by
  obtain ⟨c, hc, hs⟩ := bind_ok hs
  obtain rfl := Except.ok.inj hs
  have hci := (h.cache_noMod.brelse hc).1
  cases e with
  | false =>
    obtain ⟨hu, hl, -⟩ := h.phase.1
    refine ⟨.top .toHome 0, h.step rfl rfl rfl rfl ?_ h.nodup h.home h.disk
      ⟨(show Loop A s dur mem .toHome 0 from hl).congr rfl rfl rfl,
        fun hk => absurd hk (Nat.lt_irrefl 0)⟩⟩
    simpa [Pt.pend, loopPend, State.setPc, hu] using hci
  | true =>
    exact ⟨.finish, h.step rfl rfl rfl rfl hci h.nodup h.home h.disk
      ⟨Installed.congr h.phase.1.1 rfl rfl, h.phase.1.2.1⟩⟩

/-- Operations may start again. -/
theorem step_finish (h : Inv A s (some (t, .finish)) dur mem)
    (hs : s.commitStep A t .finish = .ok s') : Inv A s' none dur mem := by
  obtain rfl := Except.ok.inj hs
  obtain ⟨⟨hl, hh⟩, -, hz, ht, hu⟩ := h.phase
  refine ⟨⟨⟨rfl, hh, fun b hb _ => hl.view b hb, Nat.zero_le _,
    fun m b hm => absurd hm (Nat.not_lt_zero m)⟩, rfl, fun u q hq => ?_⟩, ?_, fun u j hj => ?_, ?_,
    h.nodup, h.home, h.disk⟩
  · change update s.pc t Pc.user u = _ at hq
    by_cases he : u = t
    · subst he
      rw [update_self] at hq
      cases hq
    · rw [update_of_ne he] at hq
      exact he (hu u q hq)
  · exact h.count.trans (ops_setPc (by rw [ht]; rfl)).symm
  · change update s.pc t Pc.user u = _ ∨ update s.pc t Pc.user u = _ at hj
    by_cases he : u = t
    · subst he
      rw [update_self] at hj
      rcases hj with hj | hj <;> cases hj
    · rw [update_of_ne he] at hj
      exact h.mods u j hj
  · change CacheInv s.cache s.disk mem s.lh _
    rw [hl.lh]
    exact h.cache_noMod.mono fun _ => False.elim

end Inv

/-- The point whose step commits. -/
def Pt.commits : Pt → Bool
  | .headGot false _ => true
  | _ => false

namespace Inv

/-- The phase is where the committing process stands. -/
theorem phase_eq (h : Inv A s ph dur mem) (ht : s.pc t = .commit p) : ph = some (t, p) := by
  cases ph with
  | none => exact absurd ht (h.phase.2.2 t p)
  | some up =>
    obtain ⟨u, q⟩ := up
    obtain ⟨-, -, -, hq, hu⟩ := h.phase
    obtain rfl := hu t p ht
    rw [ht] at hq
    cases hq
    rfl

theorem next (h : Inv A s ph dur mem) (hs : s.next A t = .ok s') :
    ∃ p ph', ph = some (t, p) ∧ s.pc t = .commit p ∧
      Inv A s' ph' (if p.commits then mem else dur) mem := by
  unfold State.next at hs
  split at hs
  · next p ht =>
    obtain rfl := h.phase_eq ht
    suffices hx : ∃ ph', Inv A s' ph' (if p.commits then mem else dur) mem by
      obtain ⟨ph', h'⟩ := hx
      exact ⟨p, ph', rfl, ht, h'⟩
    have lift : (∃ p', Inv A s' (some (t, p')) (if p.commits then mem else dur) mem) →
        ∃ ph', Inv A s' ph' (if p.commits then mem else dur) mem := fun ⟨p', h'⟩ => ⟨_, h'⟩
    cases p with
    | readHead => exact lift (h.step_readHead hs)
    | readHeadGot i => exact lift (h.step_readHeadGot hs)
    | top dir k => exact lift (h.step_top hs)
    | gotLog dir k i => exact lift (h.step_gotLog hs)
    | gotBoth dir k i j =>
      cases dir with
      | toLog => exact lift (h.step_gotBoth_toLog hs)
      | toHome => exact lift (h.step_gotBoth_toHome hs)
    | copied dir k i j => exact lift (h.step_copied hs)
    | head e => exact lift (h.step_head hs)
    | headGot e i =>
      cases e with
      | false => exact lift (h.step_headGot_commit hs)
      | true => exact lift (h.step_headGot_erase hs)
    | headDone e i => exact lift (h.step_headDone hs)
    | finish => exact ⟨none, h.step_finish hs⟩
  · cases hs

end Inv

theorem boot_pc (d : Disk) (u : Slot) :
    (State.boot d).pc u = if u = 0 then .commit .readHead else .user := by
  change update (fun _ => Pc.user) 0 (Pc.commit .readHead) u = _
  rw [update_apply]

/-- Power on with a recoverable disk. -/
theorem Inv.boot {d : Disk} (h : Recoverable A d dur) :
    Inv A (.boot d) (some (0, .readHead)) dur dur := by
  refine ⟨⟨⟨rfl, rfl⟩, rfl, rfl, boot_pc d 0, fun u q hq => ?_⟩, ?_, fun u j hj => ?_,
    .init d dur _, nodup_nil, fun b hb => absurd hb not_mem_nil, h⟩
  · by_contra hu
    rw [boot_pc, if_neg hu] at hq
    cases hq
  · refine (Finset.card_eq_zero.2 (Finset.filter_eq_empty_iff.2 fun u _ => ?_)).symm
    rw [boot_pc]
    split <;> exact Bool.false_ne_true
  · rw [boot_pc] at hj
    split at hj <;> rcases hj with hj | hj <;> cases hj

end Xv6.Log
