import Xv6.Proc.Lists

/-!
# Walks over the state lists

`exit`, `kill` and `wait` search the embryo list, the ready levels, and the
sleep, running and zombie lists one after another (`searchOrder`).  As long as
the body of a search keeps the links, walking the lists is walking the slots
`Lists.search` in that order (`forLists_eq`).
-/

namespace Xv6.Procs

open List

/-- The lists in the order of the searches of `exit`, `kill` and `wait`. -/
def searchOrder : List ListId :=
  .embryo :: (List.range (maxPrio + 1)).map .ready ++ [.sleep, .running, .zombie]

/-- The slots of all lists but the free list, in search order. -/
def Lists.search (a : Lists) : List Slot := searchOrder.flatMap a.list

theorem mem_searchOrder (id : ListId) :
    id ∈ searchOrder ↔ id ≠ .free ∧ ∀ i, id = .ready i → i ≤ maxPrio := by
  cases id <;> simp [searchOrder, Nat.lt_succ_iff]

theorem Lists.WF.mem_search {a : Lists} (h : a.WF) (p : Slot) :
    p ∈ a.search ↔ (a.proc p).state ≠ .unused := by
  unfold Lists.search
  rw [mem_flatMap]
  constructor
  · rintro ⟨id, hid, hp⟩
    rw [h.state id p hp]
    have := ((mem_searchOrder id).1 hid).1
    cases id <;> simp_all [ListId.state]
  · intro hst
    obtain ⟨id, hp⟩ := h.total p
    refine ⟨id, (mem_searchOrder id).2 ⟨?_, ?_⟩, hp⟩
    · rintro rfl
      exact hst (h.state _ p hp)
    · rintro i rfl
      by_contra hi
      rw [h.level i (by omega)] at hp
      simp at hp

theorem searchOrder_nodup : searchOrder.Nodup := by decide

theorem Lists.WF.search_nodup {a : Lists} (h : a.WF) : a.search.Nodup := by
  unfold Lists.search
  rw [nodup_flatMap]
  refine ⟨fun id _ => h.disjoint.nodup id, ?_⟩
  refine List.Pairwise.imp ?_ searchOrder_nodup
  intro id id' hne p hp hp'
  exact hne (h.disjoint.unique id id' p hp hp')

/-! ## The loop over one list, and over several -/

section
variable {β : Type} {s : PTable} {a : Lists}

theorem forList_eq (h : Rep s a) (id : ListId) (body : Slot → PTable → Except Panic (Option β × PTable))
    (hbody : ∀ p t t', body p t = .ok (none, t') → t'.next = t.next) :
    s.forList id body = forIn body (a.list id) s := by
  refine forEach_eq_forIn _ _ body (fun _ => True) (a.list id) ?_ NPROC (h.length_le id) _ s
    trivial (h.chain id)
  intro p _ t t' _ ht
  exact ⟨trivial, fun b _ => by rw [hbody p t t' ht]⟩

/-- A walk over several lists, with a body that keeps links and heads while it goes on. -/
theorem forLists_eq (h : Rep s a) (body : Slot → PTable → Except Panic (Option β × PTable))
    (hbody : ∀ p t t', body p t = .ok (none, t') → t'.next = t.next ∧ t'.head = t.head)
    (ids : List ListId) (t : PTable) (hn : t.next = s.next) (hh : t.head = s.head) :
    forIn (fun id t => PTable.forList id body t) ids t = forIn body (ids.flatMap a.list) t := by
  have hkeep : ∀ (l : List Slot) (t t' : PTable), forIn body l t = .ok (none, t') →
      t'.next = t.next ∧ t'.head = t.head := by
    intro l
    induction l with
    | nil =>
      intro t t' he
      simp only [forIn, Except.ok.injEq, Prod.mk.injEq, true_and] at he
      exact he ▸ ⟨rfl, rfl⟩
    | cons p l ih =>
      intro t t' he
      simp only [forIn] at he
      split at he
      · cases he
      · cases he
      · next t₁ hb =>
        have h₁ := hbody p t t₁ hb
        have h₂ := ih t₁ t' he
        exact ⟨h₂.1.trans h₁.1, h₂.2.trans h₁.2⟩
  induction ids generalizing t with
  | nil => rfl
  | cons id ids ih =>
    have hid : PTable.forList id body t = forIn body (a.list id) t := by
      refine forEach_eq_forIn _ _ body (fun _ => True) (a.list id) ?_ NPROC (h.length_le id) _ t
        trivial ?_
      · intro p _ u u' _ hu
        exact ⟨trivial, fun b _ => by rw [(hbody p u u' hu).1]⟩
      · rw [hn, hh]
        exact h.chain id
    rw [flatMap_cons, forIn_append]
    simp only [forIn, hid]
    cases hr : forIn body (a.list id) t with
    | error e => rfl
    | ok r =>
      obtain ⟨r, t'⟩ := r
      cases r with
      | some v => rfl
      | none =>
        obtain ⟨h₁, h₂⟩ := hkeep _ _ _ hr
        exact ih t' (h₁.trans hn) (h₂.trans hh)

end

/-! ## Field writes along a list -/

/-- Write the fields of the slots of `l`. -/
def PTable.mapSlots (s : PTable) (l : List Slot) (f : Proc → Proc) : PTable :=
  { s with proc := fun p => if p ∈ l then f (s.proc p) else s.proc p }

def Lists.mapSlots (a : Lists) (l : List Slot) (f : Proc → Proc) : Lists :=
  { a with proc := fun p => if p ∈ l then f (a.proc p) else a.proc p }

theorem Rep.mapSlots {s : PTable} {a : Lists} (h : Rep s a) (l : List Slot) (f : Proc → Proc) :
    Rep (s.mapSlots l f) (a.mapSlots l f) where
  globals := h.globals
  proc := by simp only [PTable.mapSlots, Lists.mapSlots, h.proc]
  chain := h.chain
  tail := h.tail
  disjoint := ⟨h.disjoint.nodup, h.disjoint.unique⟩

theorem Lists.WF.mapSlots {a : Lists} (h : a.WF) {l : List Slot} {f : Proc → Proc}
    (hst : ∀ p ∈ l, (f (a.proc p)).state = (a.proc p).state)
    (hpr : ∀ p ∈ l, (f (a.proc p)).priority ≤ maxPrio) : (a.mapSlots l f).WF where
  disjoint := ⟨h.disjoint.nodup, h.disjoint.unique⟩
  state id p hp := by
    have := h.state id p hp
    show (if p ∈ l then f (a.proc p) else a.proc p).state = id.state
    split
    · next hl => rw [hst p hl, this]
    · exact this
  total := h.total
  level := h.level
  prio p := by
    show (if p ∈ l then f (a.proc p) else a.proc p).priority ≤ maxPrio
    split
    · next hl => exact hpr p hl
    · exact h.prio p

/-- A body that only writes the fields of its slot writes them along the whole list. -/
theorem forIn_modify {β : Type} (body : Slot → PTable → Except Panic (Option β × PTable))
    (f : Proc → Proc) (s : PTable) (l : List Slot) (hnd : l.Nodup)
    (hbody : ∀ p ∈ l, ∀ pr, pr p = s.proc p →
      body p { s with proc := pr } = .ok (none, PTable.modify { s with proc := pr } p f)) :
    forIn body l s = .ok (none, s.mapSlots l f) := by
  have key : ∀ (l : List Slot), l.Nodup → (∀ p ∈ l, ∀ pr, pr p = s.proc p →
      body p { s with proc := pr } = .ok (none, PTable.modify { s with proc := pr } p f)) →
      ∀ pr : Slot → Proc, (∀ p ∈ l, pr p = s.proc p) →
      forIn body l { s with proc := pr } =
        .ok (none, PTable.mapSlots { s with proc := pr } l f) := by
    intro l
    induction l with
    | nil =>
      intro _ _ pr _
      simp [forIn, PTable.mapSlots]
    | cons p l ih =>
      intro hnd hbody pr hpr
      obtain ⟨hpl, hnd⟩ := nodup_cons.1 hnd
      simp only [forIn, hbody p mem_cons_self pr (hpr p mem_cons_self)]
      have hs : PTable.modify { s with proc := pr } p f =
          { s with proc := Function.update pr p (f (pr p)) } := rfl
      rw [hs, ih hnd (fun q hq => hbody q (mem_cons_of_mem p hq))]
      · simp only [PTable.mapSlots, Except.ok.injEq, Prod.mk.injEq, true_and, PTable.mk.injEq]
        refine ⟨?_, trivial⟩
        funext q
        by_cases hq : q = p
        · subst hq
          simp [hpl]
        · simp [hq]
      · intro q hq
        have hqp : q ≠ p := fun e => hpl (e ▸ hq)
        rw [Function.update_of_ne hqp]
        exact hpr q (mem_cons_of_mem p hq)
  exact key l hnd hbody s.proc fun _ _ => rfl

end Xv6.Procs
