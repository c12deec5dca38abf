import Xv6.Proc.Ops

/-!
# The state lists as lists

`Lists` is the table one level up: the fields of the slots and, for every state
list, the slots on it from head to tail.  `Rep s a` says that the links, heads
and tails of `s` spell out the lists of `a`; a stale tail of an empty list and a
stale `next` of a slot on no list are allowed.

`stateListRemove` is `erase` and `stateListAdd` is append (`stateListRemove_rep`,
`stateListAdd_rep`); every move between two lists is `requeue`.

`WF` is the invariant of the lists: every slot is on exactly one list, once, in
the state of that list, with a priority of at most `maxPrio`.
-/

namespace Xv6.Procs

open Function List

variable {p : Slot} {id src : ListId} {s : PTable}

structure Lists extends Globals where
  proc : Slot → Proc
  list : ListId → List Slot

variable {a : Lists}

namespace Lists

def modify (a : Lists) (p : Slot) (f : Proc → Proc) : Lists :=
  { a with proc := update a.proc p (f (a.proc p)) }

def remove (a : Lists) (id : ListId) (p : Slot) : Lists :=
  { a with list := update a.list id ((a.list id).erase p) }

def add (a : Lists) (id : ListId) (p : Slot) : Lists :=
  { a with list := update a.list id (a.list id ++ [p]) }

/-- Take `p` from `src`, write its fields, and append it to `dst`. -/
def requeue (a : Lists) (src dst : ListId) (p : Slot) (f : Proc → Proc) : Lists :=
  ((a.remove src p).modify p f).add dst p

@[simp] theorem modify_list (a : Lists) (p : Slot) (f : Proc → Proc) :
    (a.modify p f).list = a.list := rfl

@[simp] theorem modify_toGlobals (a : Lists) (p : Slot) (f : Proc → Proc) :
    (a.modify p f).toGlobals = a.toGlobals := rfl

@[simp] theorem modify_proc_self (a : Lists) (p : Slot) (f : Proc → Proc) :
    (a.modify p f).proc p = f (a.proc p) := by
  simp [modify]

theorem modify_proc_of_ne (a : Lists) {q : Slot} (f : Proc → Proc) (h : q ≠ p) :
    (a.modify p f).proc q = a.proc q := by
  simp [modify, h]

theorem requeue_proc (a : Lists) (src dst : ListId) (p : Slot) (f : Proc → Proc) :
    (a.requeue src dst p f).proc = (a.modify p f).proc := rfl

/-- No slot is on two lists, or twice on one. -/
structure Disjoint (a : Lists) : Prop where
  nodup : ∀ id, (a.list id).Nodup
  unique : ∀ id id' p, p ∈ a.list id → p ∈ a.list id' → id = id'

theorem Disjoint.remove (h : a.Disjoint) (id : ListId) (p : Slot) : (a.remove id p).Disjoint := by
  have hsub : ∀ id', (a.remove id p).list id' ⊆ a.list id' := by
    intro id' q hq
    by_cases he : id' = id
    · subst he
      simp only [Lists.remove, update_self] at hq
      exact mem_of_mem_erase hq
    · simpa [Lists.remove, he] using hq
  refine ⟨fun id' => ?_, fun id₁ id₂ q h₁ h₂ => h.unique id₁ id₂ q (hsub _ h₁) (hsub _ h₂)⟩
  by_cases he : id' = id
  · subst he
    simp only [Lists.remove, update_self]
    exact (h.nodup id').erase p
  · simpa [Lists.remove, he] using h.nodup id'

theorem Disjoint.not_mem_remove (h : a.Disjoint) (hp : p ∈ a.list id) (id' : ListId) :
    p ∉ (a.remove id p).list id' := by
  by_cases he : id' = id
  · subst he
    simp only [Lists.remove, update_self]
    exact (h.nodup id').not_mem_erase
  · simp only [Lists.remove, update_of_ne he]
    exact fun hq => he (h.unique id' id p hq hp)

theorem Disjoint.add (h : a.Disjoint) (hp : ∀ id, p ∉ a.list id) (id : ListId) :
    (a.add id p).Disjoint := by
  have hmem : ∀ id' q, q ∈ (a.add id p).list id' → q ∈ a.list id' ∨ (q = p ∧ id' = id) := by
    intro id' q hq
    by_cases he : id' = id
    · subst he
      simp only [Lists.add, update_self, mem_append, mem_singleton] at hq
      exact hq.imp_right fun e => ⟨e, rfl⟩
    · exact Or.inl (by simpa [Lists.add, he] using hq)
  refine ⟨fun id' => ?_, fun id₁ id₂ q h₁ h₂ => ?_⟩
  · by_cases he : id' = id
    · subst he
      simp only [Lists.add, update_self]
      exact nodup_append.2 ⟨h.nodup id', nodup_singleton p, by
        intro x hx y hy e
        rw [mem_singleton] at hy
        exact hp id' (hy ▸ e ▸ hx)⟩
    · simpa [Lists.add, he] using h.nodup id'
  · rcases hmem _ _ h₁ with m₁ | ⟨rfl, rfl⟩
    · rcases hmem _ _ h₂ with m₂ | ⟨rfl, rfl⟩
      · exact h.unique _ _ q m₁ m₂
      · exact absurd m₁ (hp _)
    · rcases hmem _ _ h₂ with m₂ | ⟨-, rfl⟩
      · exact absurd m₂ (hp _)
      · rfl

end Lists

/-! ## The pointers spell out the lists -/

structure Rep (s : PTable) (a : Lists) : Prop where
  globals : s.toGlobals = a.toGlobals
  proc : s.proc = a.proc
  chain : ∀ id, Chain s.next (s.head id) (a.list id)
  tail : ∀ id, a.list id ≠ [] → s.tail id = (a.list id).getLast?
  disjoint : a.Disjoint

theorem Rep.modify (h : Rep s a) (p : Slot) (f : Proc → Proc) :
    Rep (s.modify p f) (a.modify p f) where
  globals := h.globals
  proc := by simp only [PTable.modify, Lists.modify, h.proc]
  chain := h.chain
  tail := h.tail
  disjoint := ⟨h.disjoint.nodup, h.disjoint.unique⟩

theorem Rep.head_eq (h : Rep s a) (id : ListId) : s.head id = (a.list id).head? :=
  (h.chain id).head_eq

theorem Rep.length_le (h : Rep s a) (id : ListId) : (a.list id).length ≤ NPROC := by
  have := (h.chain id).length_le
  rwa [Fintype.card_fin] at this

/-- The slots on a list, from the head on. -/
def PTable.slots (s : PTable) (id : ListId) : List Slot := walk s.next NPROC (s.head id)

def PTable.lists (s : PTable) : Lists := { s.toGlobals with proc := s.proc, list := s.slots }

@[simp] theorem PTable.lists_proc (s : PTable) : s.lists.proc = s.proc := rfl

@[simp] theorem PTable.lists_list (s : PTable) : s.lists.list = s.slots := rfl

theorem Rep.lists_eq (h : Rep s a) : s.lists = a := by
  have hl : s.slots = a.list := funext fun id => (h.chain id).walk_eq (h.length_le id)
  obtain ⟨g, proc, list⟩ := a
  simp only at hl
  simp only [PTable.lists, hl, h.globals, h.proc]

theorem Rep.slots_eq (h : Rep s a) (id : ListId) : s.slots id = a.list id :=
  congrFun (congrArg Lists.list h.lists_eq) id

/-! ## One list -/

/-- The pointers of the list `id` spell out `L`; the tail pointer of an empty list may be stale. -/
structure Queue (s : PTable) (id : ListId) (L : List Slot) : Prop where
  chain : Chain s.next (s.head id) L
  tail : L ≠ [] → s.tail id = L.getLast?

/-- Nothing is written but the pointers of the list `id` and the links of `C`. -/
structure Writes (id : ListId) (C : List Slot) (s s' : PTable) : Prop where
  globals : s'.toGlobals = s.toGlobals
  proc : s'.proc = s.proc
  head : ∀ id', id' ≠ id → s'.head id' = s.head id'
  tail : ∀ id', id' ≠ id → s'.tail id' = s.tail id'
  next : ∀ q, q ∉ C → s'.next q = s.next q

theorem Rep.queue (h : Rep s a) (id : ListId) : Queue s id (a.list id) :=
  ⟨h.chain id, h.tail id⟩

section
variable {s' : PTable} {C L L' l₀ l₁ l₂ : List Slot} {id' : ListId} {q : Slot}

/-- A list without any cell of `C` is left alone. -/
theorem Writes.queue (h : Writes id C s s') (hne : id' ≠ id) (hL : Queue s id' L')
    (hC : ∀ q ∈ L', q ∉ C) : Queue s' id' L' := by
  refine ⟨?_, fun hnil => (h.tail id' hne).trans (hL.tail hnil)⟩
  rw [h.head id' hne]
  exact hL.chain.congr fun q hq => h.next q (hC q hq)

theorem stateListAdd_queue (h : Queue s id L) (hp : p ∉ L) :
    ∃ s', s.stateListAdd id p = .ok (0, s') ∧ Queue s' id (L ++ [p]) ∧
      Writes id (p :: L) s s' ∧ s'.next p = none := by
  have hh := h.chain.head_eq
  unfold PTable.stateListAdd
  cases hl : L.getLast? with
  | none =>
    obtain rfl := getLast?_eq_none_iff.1 hl
    rw [hh]
    refine ⟨_, rfl, ⟨by simp, by simp⟩, ⟨rfl, rfl, fun id' he => update_of_ne he ..,
      fun id' he => update_of_ne he .., fun q hq => update_of_ne ?_ ..⟩, by simp⟩
    exact fun he => hq (he ▸ mem_cons_self)
  | some t =>
    have hne : L ≠ [] := ne_nil_of_mem (mem_of_getLast? hl)
    rw [hh, head?_eq_some_head hne, h.tail hne, hl]
    refine ⟨_, rfl, ⟨h.chain.snoc hl hp, by simp⟩, ⟨rfl, rfl, fun _ _ => rfl,
      fun id' he => update_of_ne he .., fun q hq => ?_⟩, by simp⟩
    rw [mem_cons, not_or] at hq
    show update (update s.next t (some p)) p none q = _
    rw [update_of_ne hq.1, update_of_ne fun he : q = t => hq.2 (he ▸ mem_of_getLast? hl)]

/-- The walk of `stateListRemove` stops at `p` with the cell before it. -/
theorem removeWalk_mem (s : PTable) (p : Slot) (l₁ l₂ : List Slot) (hp : p ∉ l₁) (h : Option Slot)
    (hl : Chain s.next h (l₁ ++ p :: l₂)) (n : Nat) (hn : l₁.length ≤ n) (previous : Option Slot) :
    s.removeWalk p n h previous = .ok (some p, (l₁.getLast?).or previous) := by
  induction l₁ generalizing h n previous with
  | nil =>
    obtain ⟨rfl, -⟩ := hl
    cases n <;> simp [PTable.removeWalk]
  | cons c l₁ ih =>
    obtain ⟨rfl, hl⟩ := hl
    have hc : c ≠ p := fun e => hp (e ▸ mem_cons_self)
    cases n with
    | zero => simp at hn
    | succ n =>
      simp only [PTable.removeWalk, hc, if_false]
      rw [ih (fun e => hp (mem_cons_of_mem c e)) _ hl n (by simpa using hn)]
      cases l₁ with
      | nil => rfl
      | cons d l₁ => simp [getLast?_cons]

theorem getLast?_append_cons (l₁ l₂ : List Slot) (p : Slot) (h : l₂ ≠ []) :
    (l₁ ++ p :: l₂).getLast? = (l₁ ++ l₂).getLast? := by
  cases l₂ with
  | nil => exact absurd rfl h
  | cons c l₂ => simp [getLast?_append, getLast?_cons_cons]

theorem removeWalk_not_mem (s : PTable) (hp : p ∉ L) (h : Option Slot) (hl : Chain s.next h L)
    (n : Nat) (hn : L.length ≤ n) (previous : Option Slot) :
    ∃ q, s.removeWalk p n h previous = .ok (none, q) := by
  induction L generalizing h n previous with
  | nil =>
    rw [chain_nil] at hl
    subst hl
    cases n <;> exact ⟨_, rfl⟩
  | cons c l ih =>
    obtain ⟨rfl, hl⟩ := hl
    obtain ⟨n, rfl⟩ : ∃ k, n = k + 1 := ⟨n - 1, by rw [length_cons] at hn; omega⟩
    rw [mem_cons, not_or] at hp
    rw [PTable.removeWalk, if_neg (Ne.symm hp.1)]
    exact ih hp.2 _ hl n (by simpa using hn) _

theorem Queue.length_le (h : Queue s id L) : L.length ≤ NPROC := by
  have := h.chain.length_le
  rwa [Fintype.card_fin] at this

theorem stateListRemove_not_mem (h : Queue s id L) (hp : p ∉ L) :
    s.stateListRemove id p = .ok (-1, s) := by
  have hh := h.chain.head_eq
  unfold PTable.stateListRemove
  cases L with
  | nil => rw [hh]; rfl
  | cons c l =>
    obtain ⟨q, hw⟩ := removeWalk_not_mem s hp _ h.chain NPROC h.length_le none
    rw [mem_cons, not_or] at hp
    rw [hh] at hw ⊢
    rw [h.tail (cons_ne_nil c l), getLast?_eq_some_getLast (cons_ne_nil c l)]
    simp only [head?_cons] at hw ⊢
    rw [if_neg (Ne.symm hp.1), hw]

/-- The inner path: the cell `q` before `p` takes over its link, and the tail pointer moves
back to `q` when `p` was the last cell. -/
theorem Queue.removeInner (h : Queue s id (l₀ ++ q :: p :: l₂)) (tail : ListId → Option Slot)
    (htail : tail id = if l₂ = [] then some q else s.tail id) :
    Queue { s with
      next := update (update s.next q (s.next p)) p none
      tail := tail } id (l₀ ++ q :: l₂) := by
  have hnd := h.chain.nodup
  have hp : p ∉ l₀ ++ q :: l₂ := by
    intro hm
    rw [nodup_append, nodup_cons, nodup_cons] at hnd
    rcases mem_append.1 hm with hm | hm
    · exact hnd.2.2 p hm p (by simp) rfl
    · rcases mem_cons.1 hm with rfl | hm
      · exact hnd.2.1.1 mem_cons_self
      · exact hnd.2.1.2.1 hm
  refine ⟨h.chain.unlink.update hp none, fun _ => ?_⟩
  show tail id = _
  rw [htail]
  split
  · next he => simp [he]
  · next he =>
    rw [h.tail (by simp), show l₀ ++ q :: p :: l₂ = (l₀ ++ [q]) ++ p :: l₂ by simp,
      getLast?_append_cons _ _ _ he]
    simp

theorem stateListRemove_queue (h : Queue s id L) (hp : p ∈ L) :
    ∃ s', s.stateListRemove id p = .ok (0, s') ∧ Queue s' id (L.erase p) ∧ Writes id L s s' := by
  obtain ⟨l₁, l₂, rfl, hp₁⟩ := eq_append_cons_of_mem hp
  have hchain := h.chain
  have htail := h.tail (ne_nil_of_mem hp)
  rw [erase_append_right _ hp₁, erase_cons_head]
  rcases eq_nil_or_concat l₁ with rfl | ⟨l₀, q, rfl⟩
  · -- the head path: only the head pointer moves
    unfold PTable.stateListRemove
    rw [show s.head id = some p from hchain.1, htail, nil_append,
      getLast?_eq_some_getLast (cons_ne_nil p l₂)]
    simp only [if_true]
    refine ⟨_, rfl, ⟨?_, fun hne => ?_⟩, rfl, rfl, fun id' he => update_of_ne he .., fun _ _ => rfl,
      fun _ _ => rfl⟩
    · show Chain s.next (update s.head id (s.next p) id) l₂
      rw [update_self]
      exact hchain.2
    · exact htail.trans (getLast?_append_cons [] l₂ p hne)
  · have hne : l₀ ++ [q] ≠ [] := by simp
    rw [concat_eq_append] at hp₁ hchain htail h ⊢
    have hwalk := removeWalk_mem s p _ l₂ hp₁ _ hchain NPROC (by
      have := h.length_le
      rw [length_append] at this
      omega) none
    have hhead : s.head id = some ((l₀ ++ [q]).head hne) := by
      rw [hchain.head_eq, head?_append_of_ne_nil _ hne, head?_eq_some_head hne]
    have hcp : (l₀ ++ [q]).head hne ≠ p := fun he => hp₁ (he ▸ head_mem hne)
    rw [hhead, getLast?_concat, Option.some_or] at hwalk
    rw [append_assoc, singleton_append] at h htail
    rw [append_assoc, singleton_append]
    have hnext : ∀ v, ∀ x ∉ l₀ ++ [q] ++ p :: l₂,
        update (update s.next q v) p none x = s.next x := by
      intro v x hx
      rw [update_of_ne, update_of_ne]
      · rintro rfl
        exact hx (by simp)
      · rintro rfl
        exact hx (by simp)
    unfold PTable.stateListRemove
    rw [hhead]
    rcases eq_nil_or_concat l₂ with rfl | ⟨l₃, t, rfl⟩
    · have ht : s.tail id = some p := by rw [htail]; simp
      have hnp : s.next p = none := hchain.suffix
      rw [ht]
      simp only [hcp, if_false, hwalk, if_true]
      have hq := h.removeInner (update s.tail id (some q)) (by simp)
      rw [hnp] at hq
      exact ⟨_, rfl, hq, rfl, rfl, fun _ _ => rfl, fun id' he => update_of_ne he .., hnext _⟩
    · have ht : s.tail id = some t := by rw [htail]; simp [getLast?_cons]
      have hpt : p ≠ t := by
        rintro rfl
        exact (nodup_cons.1 (nodup_append.1 hchain.nodup).2.1).1 (by simp)
      rw [ht]
      simp only [hcp, if_false, hwalk, hpt]
      exact ⟨_, rfl, h.removeInner s.tail (by simp), rfl, rfl, fun _ _ => rfl, fun _ _ => rfl, hnext _⟩

end

theorem remove_list_of_ne (a : Lists) {id' : ListId} (p : Slot) (he : id' ≠ id) :
    (a.remove id p).list id' = a.list id' := by
  simp only [Lists.remove, update_of_ne he]

theorem requeue_list_of_ne (a : Lists) {dst : ListId} (p : Slot) (f : Proc → Proc) (hs : id ≠ src)
    (hd : id ≠ dst) : (a.requeue src dst p f).list id = a.list id := by
  simp only [Lists.requeue, Lists.add, Lists.modify, Lists.remove, update_of_ne hd,
    update_of_ne hs]

/-- **Append and erase.**  `stateListRemove` returns -1 exactly for a process that is not on the
list, and then writes nothing; both functions leave the lists alone that have none of the cells. -/
theorem stateList_append_erase (s : PTable) (id : ListId) (L : List Slot) (p : Slot)
    (h : Queue s id L) :
    (∃ r s', s.stateListRemove id p = .ok (r, s') ∧ (r = -1 ↔ p ∉ L) ∧ (p ∉ L → s' = s) ∧
      (p ∈ L → r = 0) ∧ Queue s' id (L.erase p) ∧ Writes id L s s' ∧
      ∀ id' L', id' ≠ id → Queue s id' L' → (∀ q ∈ L', q ∉ p :: L) → Queue s' id' L') ∧
    (p ∉ L → ∃ s', s.stateListAdd id p = .ok (0, s') ∧ Queue s' id (L ++ [p]) ∧
      Writes id (p :: L) s s' ∧
      ∀ id' L', id' ≠ id → Queue s id' L' → (∀ q ∈ L', q ∉ p :: L) → Queue s' id' L') := by
  constructor
  · by_cases hp : p ∈ L
    · obtain ⟨s', hs, hq, hw⟩ := stateListRemove_queue h hp
      refine ⟨0, s', hs, iff_of_false (by decide) (not_not.2 hp), fun hn => absurd hp hn,
        fun _ => rfl, hq, hw, fun id' L' hne hL' hd => hw.queue hne hL' fun q hq' hm => ?_⟩
      exact hd q hq' (mem_cons_of_mem p hm)
    · refine ⟨-1, s, stateListRemove_not_mem h hp, iff_of_true rfl hp, fun _ => rfl,
        fun hm => absurd hm hp, ?_, ⟨rfl, rfl, fun _ _ => rfl, fun _ _ => rfl, fun _ _ => rfl⟩,
        fun _ _ _ hL' _ => hL'⟩
      rw [erase_of_not_mem hp]
      exact h
  · intro hp
    obtain ⟨s', hs, hq, hw, -⟩ := stateListAdd_queue h hp
    exact ⟨s', hs, hq, hw, fun id' L' hne hL' hd => hw.queue hne hL' hd⟩

/-- A list of three slots, and the middle one taken off. -/
theorem stateList_append_erase_three : ∃ s s' : PTable, Queue s .sleep [2, 5, 1] ∧
    s.stateListRemove .sleep 5 = .ok (0, s') ∧ Queue s' .sleep [2, 1] := by
  have hq : Queue ⟨⟨0, none, 1, 0⟩, fun _ => {}, fun q => if q = 2 then some 5 else
      if q = 5 then some 1 else none, fun _ => some 2, fun _ => some 1⟩ .sleep [2, 5, 1] :=
    ⟨⟨rfl, rfl, rfl, rfl⟩, fun _ => rfl⟩
  obtain ⟨r, s', hs, -, -, hr, hq', -⟩ := (stateList_append_erase _ _ _ 5 hq).1
  obtain rfl := hr (by decide)
  exact ⟨_, s', hq, hs, hq'⟩

/-- The list `id` has become `L`, and the others are disjoint from what was written. -/
theorem Rep.writes (h : Rep s a) {s' : PTable} {C L : List Slot}
    (hw : Writes id C s s') (hq : Queue s' id L) (hC : ∀ id', id' ≠ id → ∀ q ∈ a.list id', q ∉ C)
    (hd : Lists.Disjoint { a with list := update a.list id L }) :
    Rep s' { a with list := update a.list id L } := by
  have hall : ∀ id', Queue s' id' (update a.list id L id') := by
    intro id'
    by_cases he : id' = id
    · subst he
      rw [update_self]
      exact hq
    · rw [update_of_ne he]
      exact hw.queue he (h.queue id') (hC id' he)
  exact ⟨hw.globals.trans h.globals, hw.proc.trans h.proc, fun id' => (hall id').chain,
    fun id' => (hall id').tail, hd⟩

theorem stateListAdd_rep (h : Rep s a) (hp : ∀ id, p ∉ a.list id) (id : ListId) :
    ∃ s', s.stateListAdd id p = .ok (0, s') ∧ Rep s' (a.add id p) ∧ s'.next p = none := by
  obtain ⟨s', hs, hq, hw, hn⟩ := stateListAdd_queue (h.queue id) (hp id)
  refine ⟨s', hs, h.writes hw hq (fun id' he q hq' hm => ?_) (h.disjoint.add hp id), hn⟩
  rcases mem_cons.1 hm with rfl | hm
  · exact hp id' hq'
  · exact he (h.disjoint.unique _ _ q hq' hm)

theorem stateListRemove_rep (h : Rep s a) (hp : p ∈ a.list id) :
    ∃ s', s.stateListRemove id p = .ok (0, s') ∧ Rep s' (a.remove id p) := by
  obtain ⟨s', hs, hq, hw⟩ := stateListRemove_queue (h.queue id) hp
  exact ⟨s', hs, h.writes hw hq (fun id' he q hq' hm => he (h.disjoint.unique _ _ q hq' hm))
    (h.disjoint.remove id p)⟩

/-! ## Moving a process between two lists -/

theorem requeue_rep {s : PTable} (h : Rep s a) {src : ListId} {p : Slot}
    (hp : p ∈ a.list src) (dst : ListId) (f : Proc → Proc) :
    ∃ s₁ s₂, s.stateListRemove src p = .ok (0, s₁) ∧ s₁.proc = a.proc ∧
      s₁.toGlobals = a.toGlobals ∧ (s₁.modify p f).stateListAdd dst p = .ok (0, s₂) ∧
      Rep s₂ (a.requeue src dst p f) ∧ s₂.next p = none := by
  obtain ⟨s₁, h₁, r₁⟩ := stateListRemove_rep h hp
  obtain ⟨s₂, h₂, r₂, hn⟩ := stateListAdd_rep (r₁.modify p f)
    (fun id => h.disjoint.not_mem_remove hp id) dst
  exact ⟨s₁, s₂, h₁, r₁.proc, r₁.globals, h₂, r₂, hn⟩

/-- `changeState` on a process of the source list, in the state it asserts. -/
theorem changeState_rep (h : Rep s a) (hp : p ∈ a.list src) {stateRemove : ProcState}
    (hst : (a.proc p).state = stateRemove) (dst : ListId) (stateAdd : ProcState) (err : String) :
    ∃ s', s.changeState src dst p stateRemove stateAdd err = .ok s' ∧
      Rep s' (a.requeue src dst p fun q => { q with state := stateAdd }) ∧ s'.next p = none := by
  obtain ⟨s₁, s₂, h₁, hproc, -, h₂, r₂, hn⟩ := requeue_rep h hp dst
    fun q => { q with state := stateAdd }
  refine ⟨s₂, ?_, r₂, hn⟩
  simp [PTable.changeState, h₁, PTable.assertState, hproc, hst, h₂, bind, Except.bind]

/-- Every slot is on exactly one list, once, in the state of the list, and every priority
names a level. -/
structure Lists.WF (a : Lists) : Prop where
  disjoint : a.Disjoint
  state : ∀ id p, p ∈ a.list id → (a.proc p).state = id.state
  total : ∀ p, ∃ id, p ∈ a.list id
  level : ∀ i, maxPrio < i → a.list (.ready i) = []
  prio : ∀ p, (a.proc p).priority ≤ maxPrio

theorem Lists.Disjoint.mem_requeue (h : a.Disjoint) (hp : p ∈ a.list src) (dst : ListId)
    (f : Proc → Proc) (id : ListId) (q : Slot) :
    q ∈ (a.requeue src dst p f).list id ↔ (q = p ∧ id = dst) ∨ (q ≠ p ∧ q ∈ a.list id) := by
  have hrem : q ∈ (a.remove src p).list id ↔ q ≠ p ∧ q ∈ a.list id := by
    by_cases he : id = src
    · subst he
      simp only [Lists.remove, update_self]
      exact (h.nodup id).mem_erase_iff
    · rw [remove_list_of_ne a p he]
      refine ⟨fun hq => ⟨?_, hq⟩, fun hq => hq.2⟩
      rintro rfl
      exact he (h.unique _ _ q hq hp)
  have hlist : ((a.remove src p).modify p f).list id = (a.remove src p).list id := rfl
  by_cases he : id = dst
  · subst he
    simp only [Lists.requeue, Lists.add, update_self, mem_append,
      mem_singleton, hlist, hrem]
    tauto
  · simp only [Lists.requeue, Lists.add, update_of_ne he, hlist, hrem]
    tauto

theorem Lists.WF.mem_iff (h : a.WF) (hid : ∀ i, id ≠ .ready i) (p : Slot) :
    p ∈ a.list id ↔ (a.proc p).state = id.state := by
  refine ⟨h.state id p, fun hst => ?_⟩
  obtain ⟨id', hm⟩ := h.total p
  have he := h.state id' p hm
  rw [hst] at he
  have : id = id' := by
    cases id <;> cases id' <;> simp_all [ListId.state]
  exact this ▸ hm

theorem Lists.WF.requeue (h : a.WF) (hp : p ∈ a.list src) {dst : ListId}
    {f : Proc → Proc} (hst : (f (a.proc p)).state = dst.state)
    (hpr : (f (a.proc p)).priority ≤ maxPrio) (hdst : ∀ i, dst = .ready i → i ≤ maxPrio) :
    (a.requeue src dst p f).WF where
  disjoint := by
    have hd : ((a.remove src p).modify p f).Disjoint :=
      ⟨(h.disjoint.remove src p).nodup, (h.disjoint.remove src p).unique⟩
    exact hd.add (fun id => h.disjoint.not_mem_remove hp id) dst
  state id q hq := by
    rw [requeue_proc]
    rcases (h.disjoint.mem_requeue hp dst f id q).1 hq with ⟨rfl, rfl⟩ | ⟨hne, hq⟩
    · rw [modify_proc_self, hst]
    · rw [modify_proc_of_ne a f hne]
      exact h.state id q hq
  total q := by
    by_cases hq : q = p
    · exact ⟨dst, (h.disjoint.mem_requeue hp dst f dst q).2 (Or.inl ⟨hq, rfl⟩)⟩
    · obtain ⟨id, hm⟩ := h.total q
      exact ⟨id, (h.disjoint.mem_requeue hp dst f id q).2 (Or.inr ⟨hq, hm⟩)⟩
  level i hi := by
    rw [eq_nil_iff_forall_not_mem]
    intro q hq
    rcases (h.disjoint.mem_requeue hp dst f _ q).1 hq with ⟨-, he⟩ | ⟨-, hm⟩
    · have := hdst i he.symm
      omega
    · rw [h.level i hi] at hm
      simp at hm
  prio q := by
    rw [requeue_proc]
    by_cases hq : q = p
    · subst hq
      rw [modify_proc_self]
      exact hpr
    · rw [modify_proc_of_ne a f hq]
      exact h.prio q

theorem Lists.WF.modify (h : a.WF) {f : Proc → Proc}
    (hst : (f (a.proc p)).state = (a.proc p).state) (hpr : (f (a.proc p)).priority ≤ maxPrio) :
    (a.modify p f).WF where
  disjoint := ⟨h.disjoint.nodup, h.disjoint.unique⟩
  state id q hq := by
    by_cases he : q = p
    · subst he
      rw [modify_proc_self, hst]
      exact h.state id q hq
    · rw [modify_proc_of_ne a f he]
      exact h.state id q hq
  total := h.total
  level := h.level
  prio q := by
    by_cases he : q = p
    · subst he
      rw [modify_proc_self]
      exact hpr
    · rw [modify_proc_of_ne a f he]
      exact h.prio q

end Xv6.Procs
