import Xv6.Lib.Slots
import Xv6.Fs.FileBytes

/-!
# Directories as finite maps

The entries of a directory are a table of slots: the key is the name as `namecmp` reads it, and an
entry with inode number 0 is empty.  `dirlookup` looks a name up in the map, `dirlink` adds a name
that is not there, and the store of zeros in `sys_unlink` takes one away.

An entry keeps 16 bits of the inode number.
-/

namespace Xv6.Fs

open Function

variable {sb : Superblock} {dev : Devsw} {s s' : State} {t : ISlot} {D D' : Disk}

/-! ## The table -/

/-- What entry `j` of the directory `i` holds: a name and an inode number, unless it is empty. -/
def Disk.slots (D : Disk) (sb : Superblock) (i j : Nat) : Option (List UInt8 × Nat) :=
  if (D.dirent sb i j).inum = 0 then none
  else some (cname (D.dirent sb i j).name, (D.dirent sb i j).inum)

/-- The directory `i` as a map from names to inode numbers. -/
def Disk.dirMap (D : Disk) (sb : Superblock) (i : Nat) : List UInt8 → Option Nat :=
  Slots.get (D.slots sb i) (D.entries i)

/-- The names of the entries in use are pairwise different. -/
def Disk.DistinctNames (D : Disk) (sb : Superblock) (i : Nat) : Prop :=
  Slots.Distinct (D.slots sb i) (D.entries i)

theorem lookup_eq_find (D : Disk) (sb : Superblock) (i : Nat) (name : List UInt8) :
    D.lookup sb i name = Slots.find (D.slots sb i) (D.entries i) (cname name) := by
  unfold Disk.lookup Disk.search Slots.find
  rw [List.drop_zero]
  congr 1
  funext j
  unfold Disk.slots namecmp
  by_cases h : (D.dirent sb i j).inum = 0
  · simp [h]
  · simp [h, eq_comm]

theorem slots_of_lookup {i j : Nat} {name : List UInt8} (h : D.lookup sb i name = some j) :
    j < D.entries i ∧ D.slots sb i j = some (cname name, (D.dirent sb i j).inum) := by
  rw [lookup_eq_find] at h
  obtain ⟨hj, v, hv⟩ := Slots.find_some h
  refine ⟨hj, ?_⟩
  unfold Disk.slots at hv ⊢
  split at hv
  · cases hv
  next h0 => rw [if_neg h0, (Prod.mk.inj (Option.some.inj hv)).1]

/-- What `dirlookup` finds is what the map says. -/
theorem dirMap_eq (D : Disk) (sb : Superblock) (i : Nat) (name : List UInt8) :
    D.dirMap sb i (cname name) =
      (D.lookup sb i name).map fun j => (D.dirent sb i j).inum := by
  unfold Disk.dirMap Slots.get
  rw [← lookup_eq_find]
  cases h : D.lookup sb i name with
  | none => rfl
  | some j =>
    rw [Option.bind_some, (slots_of_lookup h).2]
    rfl

/-! ## Taking and giving back a reference -/

/-- Nothing changed but what the cache keeps in entries that are not in use. -/
structure Unchanged (s s' : State) : Prop where
  disk : s'.disk = s.disk
  ft : s'.ft = s.ft
  proc : s'.proc = s.proc
  tx : s'.tx = s.tx
  ref : ∀ u, (s'.ic u).ref = (s.ic u).ref
  entry : ∀ u, 0 < (s.ic u).ref → s'.ic u = s.ic u

variable {s₁ : State}

/-- The inode was in the cache, or takes an entry that was not in use. -/
theorem iget_cases {i : Nat} {u : ISlot} (h : iget i s = .ok (u, s₁)) : ∃ e, s₁ = s.setI u e ∧
    (0 < (s.ic u).ref ∧ e = { s.ic u with ref := (s.ic u).ref + 1 } ∨
      (s.ic u).ref = 0 ∧ e.ref = 1 ∧ e.valid = false) := by
  cases hc : s.cached i with
  | some ip =>
    rw [iget_cached hc] at h
    cases h
    have hpos := List.find?_some hc
    simp only [decide_eq_true_eq] at hpos
    exact ⟨_, rfl, .inl ⟨hpos.1, rfl⟩⟩
  | none =>
    cases hv : s.vacant with
    | none =>
      rw [iget_full hc hv] at h
      cases h
    | some ip =>
      rw [iget_vacant hc hv] at h
      cases h
      exact ⟨_, rfl, .inr ⟨vacant_some hv, rfl, rfl⟩⟩

/-- An inode that has just been taken is not freed when it is given back. -/
theorem iget_iput {i : Nat} {u : ISlot} (h : iget i s = .ok (u, s₁)) :
    ∃ s₂, iput u s₁ = .ok ((), s₂) ∧ Unchanged s s₂ := by
  obtain ⟨e, rfl, he⟩ := iget_cases h
  -- the entry is in use afterwards by one more, or it is new and has not been read
  obtain ⟨hlast, href, hsame⟩ : ¬ (s.setI u e).Last u ∧ e.ref = (s.ic u).ref + 1 ∧
      (0 < (s.ic u).ref → { e with ref := (s.ic u).ref } = s.ic u) := by
    unfold State.Last
    rw [setI_self]
    rcases he with ⟨hpos, rfl⟩ | ⟨h0, href, hv⟩
    · refine ⟨fun hlast => ?_, rfl, fun _ => rfl⟩
      have := hlast.1
      simp only at this
      omega
    · refine ⟨fun hlast => ?_, by rw [href, h0], by omega⟩
      rw [hv] at hlast
      exact nomatch hlast.2.1
  refine ⟨s.setI u { e with ref := (s.ic u).ref }, ?_, rfl, rfl, rfl, rfl, ?_, ?_⟩
  · show (if (s.setI u e).Last u then _ else modI u _ : M Unit) _ = _
    rw [if_neg hlast, modI_eq, setI_self, href, Nat.add_sub_cancel]
    simp only [State.setI, update_idem]
  · intro v
    by_cases hv : v = u
    · rw [hv, setI_self]
    · rw [setI_of_ne _ _ hv]
  · intro v hpos
    by_cases hv : v = u
    · subst hv
      rw [setI_self]
      exact hsame hpos
    · rw [setI_of_ne _ _ hv]

/-! ## Looking up -/

section
variable (h : IsDir sb t s)
include h

/-- `dirlookup` reads the entries and takes a reference to the inode it has found. -/
theorem IsDir.dirlookup_eq (dev : Devsw) (name : List UInt8) : dirlookup sb dev t name s =
    match (s.over t).lookup sb (s.ic t).inum name with
    | none => .ok (none, s)
    | some j => (iget ((s.over t).dirent sb (s.ic t).inum j).inum >>= fun u =>
        pure (some (u, DESIZE * j)) : M _) s := by
  have hscan := h.scan_passes dev .dirlinkRead
    (fun de => de.inum ≠ 0 ∧ namecmp name de.name) 0
  rw [Nat.mul_zero] at hscan
  show (if (s.ic t).copy.type ≠ T_DIR then throw _ else _ : M _) s = _
  rw [if_neg (not_not.2 h.type), seq_ok hscan]
  unfold Disk.lookup
  cases (s.over t).search sb (s.ic t).inum (fun de => de.inum ≠ 0 ∧ namecmp name de.name) 0 with
  | none => rfl
  | some j => rfl

theorem IsDir.dirlink_found {name : List UInt8} {j : Nat} (inum : Nat)
    (hj : (s.over t).lookup sb (s.ic t).inum name = some j) :
    dirlink sb dev t name inum s =
      (iget ((s.over t).dirent sb (s.ic t).inum j).inum >>= fun u => iput u >>= fun _ =>
        pure false : M Bool) s := by
  have hlook := h.dirlookup_eq dev name
  rw [hj] at hlook
  dsimp only at hlook
  unfold dirlink
  cases hg : iget ((s.over t).dirent sb (s.ic t).inum j).inum s with
  | error e =>
    rw [seq_error hg] at hlook ⊢
    exact seq_error hlook
  | ok x =>
    rw [seq_ok hg] at hlook ⊢
    exact seq_ok hlook

theorem IsDir.dirlink_absent {name : List UInt8} (inum : Nat)
    (hn : (s.over t).lookup sb (s.ic t).inum name = none) :
    dirlink sb dev t name inum s =
      (writei sb dev t (Dirent.encode name inum)
        (DESIZE * (s.over t).freeEntry sb (s.ic t).inum) >>= fun w =>
          if w = some DESIZE then pure true else throw .dirlink : M Bool) s := by
  have hlook := h.dirlookup_eq dev name
  rw [hn] at hlook
  have hscan := h.scan_passes dev .dirlinkRead (fun de => de.inum = 0) 0
  rw [Nat.mul_zero] at hscan
  unfold dirlink
  rw [seq_ok hlook]
  dsimp only
  rw [seq_get, seq_ok hscan, h.freeEntry_off]

end

/-! ## Storing an entry -/

/-- A held directory whose blocks belong to it alone and whose names are different. -/
structure IsTable (sb : Superblock) (t : ISlot) (s : State) : Prop extends IsDir sb t s where
  held : 0 < (s.ic t).ref
  owned : Owned sb (s.over t)
  distinct : (s.over t).DistinctNames sb (s.ic t).inum

theorem slots_of_inum {i j : Nat} (h : (D.dirent sb i j).inum = 0) : D.slots sb i j = none :=
  if_pos h

theorem Wrote.slots_other {i j : Nat} {src : List UInt8} (hw : Wrote sb i (DESIZE * j) src D D')
    (hlen : src.length = DESIZE) {k : Nat} (hk : k ≠ j) : D'.slots sb i k = D.slots sb i k := by
  unfold Disk.slots
  rw [hw.dirent rfl hlen, if_neg hk]

theorem ref_wrote (hs : s' = s.store t D' ∨ s' = s.put t D') : (s'.ic t).ref = (s.ic t).ref := by
  rcases hs with rfl | rfl
  · simp [State.store, State.put]
  · simp [State.put]

section
variable {j : Nat} {src : List UInt8} (hlen : src.length = DESIZE)
  (hw : Wrote sb (s.ic t).inum (DESIZE * j) src (s.over t) D')
  (hs : s' = s.store t D' ∨ s' = s.put t D')
include hlen hw hs

theorem IsDir.wrote (h : IsDir sb t s) (hj : j ≤ (s.over t).entries (s.ic t).inum) :
    IsDir sb t s' := by
  obtain ⟨hover, hinum⟩ := over_wrote hw hs
  have hold := h.size_eq
  have hsize : (s'.ic t).copy.size = max (s.ic t).copy.size (DESIZE * j + DESIZE) := by
    rw [← over_size, hover, hinum, hw.size, over_size, hlen]
  constructor
  · rw [hover, hinum, hw.live]
    exact h.live
  · rw [← over_type, hover, hinum, hw.type_eq, over_type]
    exact h.type
  · rw [hsize, hold]
    dsimp only [DESIZE]
    omega
  · intro n hn
    rw [hover, hinum]
    by_cases hlow : n * BSIZE < (s.ic t).copy.size
    · rw [hw.addr _ n (h.nohole n hlow)]
      exact h.nohole n hlow
    -- the directory has grown by the entry, and the write fills in what it covers
    · have hne : src ≠ [] := by
        rintro rfl
        cases hlen
      refine hw.mapped n hne ?_ ?_
      · dsimp only [DESIZE, BSIZE] at *
        omega
      · rw [hlen]
        dsimp only [DESIZE, BSIZE] at *
        omega

/-- A name that is not there is written into an empty entry or behind the last one. -/
theorem IsTable.insert (h : IsTable sb t s) {name : List UInt8} {inum : Nat}
    (hsrc : src = Dirent.encode name inum) (h0 : 0 < inum) (h16 : inum < 65536)
    (hn : (s.over t).lookup sb (s.ic t).inum name = none)
    (hj : j = (s.over t).freeEntry sb (s.ic t).inum) :
    IsTable sb t s' ∧ (s'.over t).dirMap sb (s'.ic t).inum =
      update ((s.over t).dirMap sb (s.ic t).inum) (cname name) (some inum) := by
  obtain ⟨hover, hinum⟩ := over_wrote hw hs
  have hle : j ≤ (s.over t).entries (s.ic t).inum := hj ▸ freeEntry_le ..
  have hself : D'.slots sb (s.ic t).inum j = some (cname name, inum) := by
    unfold Disk.slots
    have hne : inum ≠ 0 := by omega
    rw [hw.dirent rfl hlen, if_pos rfl, hsrc, decode_encode, Nat.mod_eq_of_lt h16]
    dsimp only
    rw [if_neg hne, cname_strncpy]
  have hempty : j < (s.over t).entries (s.ic t).inum →
      (s.over t).slots sb (s.ic t).inum j = none := by
    intro hlt
    rw [hj] at hlt ⊢
    exact slots_of_inum (freeEntry_inum hlt)
  rw [lookup_eq_find] at hn
  obtain ⟨hd, hget⟩ := h.distinct.insert hle hempty hn (hw.entries rfl hlen) hself
    fun k hk => hw.slots_other hlen hk
  refine ⟨⟨h.toIsDir.wrote hlen hw hs hle, ?_, ?_, ?_⟩, ?_⟩
  · rw [ref_wrote hs]
    exact h.held
  · rw [hover]
    exact hw.owned
  · rw [hover, hinum]
    exact hd
  · rw [hover, hinum]
    funext k
    rw [update_apply]
    exact hget k

/-- The entry of a name is zeroed. -/
theorem IsTable.erase (h : IsTable sb t s) {name : List UInt8} (h0 : (Dirent.decode src).inum = 0)
    (hj : (s.over t).lookup sb (s.ic t).inum name = some j) :
    IsTable sb t s' ∧ (s'.over t).dirMap sb (s'.ic t).inum =
      update ((s.over t).dirMap sb (s.ic t).inum) (cname name) none := by
  obtain ⟨hover, hinum⟩ := over_wrote hw hs
  obtain ⟨hlt, hslot⟩ := slots_of_lookup hj
  have hself : D'.slots sb (s.ic t).inum j = none := by
    apply slots_of_inum
    rw [hw.dirent rfl hlen, if_pos rfl, h0]
  have hent : D'.entries (s.ic t).inum = (s.over t).entries (s.ic t).inum := by
    rw [hw.entries rfl hlen]
    omega
  obtain ⟨hd, hget⟩ := h.distinct.erase hlt hslot hself fun k hk => hw.slots_other hlen hk
  refine ⟨⟨h.toIsDir.wrote hlen hw hs hlt.le, ?_, ?_, ?_⟩, ?_⟩
  · rw [ref_wrote hs]
    exact h.held
  · rw [hover]
    exact hw.owned
  · rw [hover, hinum, Disk.DistinctNames, hent]
    exact hd
  · rw [hover, hinum, Disk.dirMap, hent]
    funext k
    rw [update_apply]
    exact hget k

end

theorem modD_logWrite {α : Type} {k : Unit → M α} {f : Disk → Disk} (htx : s.tx = true) :
    (modD f >>= fun _ => logWrite >>= k) s = k () { s with disk := f s.disk } := by
  have hlog : logWrite { s with disk := f s.disk } = .ok ((), { s with disk := f s.disk }) := by
    show (if s.tx = true then pure () else throw .outsideTrans : M Unit) _ = _
    rw [if_pos htx]
    rfl
  exact seq_ok hlog

/-- A store into an entry that is there needs no block. -/
theorem IsDir.writei_entry (dev : Devsw) (h : IsDir sb t s) (htx : s.tx = true) {j : Nat} {src : List UInt8}
    (hj : j < (s.over t).entries (s.ic t).inum) (hlen : src.length = DESIZE) :
    ∃ s', writei sb dev t src (DESIZE * j) s = .ok (some DESIZE, s') := by
  have hsize := h.size_eq
  have hmax := h.size_le
  have hrej : ¬ Rejected (s.ic t).copy (DESIZE * j) src.length := by
    unfold Rejected
    dsimp only [MAXFILE, NDIRECT, NINDIRECT, BSIZE, DESIZE] at *
    omega
  have hfit : ¬ MAXFILE * BSIZE < DESIZE * j + src.length := by
    dsimp only [DESIZE] at *
    omega
  have hmap : bmap sb t (DESIZE * j / BSIZE) s =
      .ok ((s.over t).addr sb (s.ic t).inum (DESIZE * j / BSIZE), s) := by
    refine bmap_eq h.live (h.nohole _ ?_)
    dsimp only [DESIZE, BSIZE] at *
    omega
  have hne : src ≠ [] := by
    rintro rfl
    cases hlen
  have hchunk : min src.length (BSIZE - DESIZE * j % BSIZE) = DESIZE := by
    dsimp only [DESIZE, BSIZE] at *
    omega
  obtain ⟨s₁, hloop⟩ : ∃ s₁, writeLoop sb t src.length (DESIZE * j) src s =
      .ok (DESIZE * j + DESIZE, s₁) := by
    rw [hlen]
    unfold writeLoop
    rw [if_neg hne, seq_ok hmap]
    dsimp only
    rw [hchunk, List.drop_of_length_le hlen.le]
    rw [modD_logWrite htx]
    exact ⟨_, rfl⟩
  show ∃ s', (if (s.ic t).copy.type = T_DEV then _ else
    if Rejected (s.ic t).copy (DESIZE * j) src.length then _ else
      if MAXFILE * BSIZE < DESIZE * j + src.length then _ else _ : M _) s = _
  rw [if_neg h.not_dev, if_neg hrej, if_neg hfit, seq_ok hloop, hlen, if_neg (by dsimp only [DESIZE] at *; omega)]
  exact ⟨s₁, rfl⟩

/-! ## The map -/

/-- In the state `s`, `dirlookup` on `t` looks its name up in `f`. -/
def Reads (sb : Superblock) (dev : Devsw) (t : ISlot) (s : State) (f : List UInt8 → Option Nat) :
    Prop :=
  ∀ name, match f (cname name) with
    | none => dirlookup sb dev t name s = .ok (none, s)
    | some i => ∃ off, dirlookup sb dev t name s =
        (iget i >>= fun u => pure (some (u, off)) : M _) s

theorem IsDir.reads (h : IsDir sb t s) :
    Reads sb dev t s ((s.over t).dirMap sb (s.ic t).inum) := by
  intro name
  rw [dirMap_eq, h.dirlookup_eq]
  cases (s.over t).lookup sb (s.ic t).inum name with
  | none => rfl
  | some j => exact ⟨DESIZE * j, rfl⟩

/-- `iget` leaves an entry that is in use as it is, but for the count. -/
theorem iget_entry {i : Nat} {u : ISlot} (h : iget i s = .ok (u, s₁)) :
    s₁.disk = s.disk ∧ ∀ v, 0 < (s.ic v).ref → 0 < (s₁.ic v).ref ∧
      (s₁.ic v).inum = (s.ic v).inum ∧ (s₁.ic v).copy = (s.ic v).copy := by
  obtain ⟨e, rfl, he⟩ := iget_cases h
  refine ⟨rfl, fun v hv => ?_⟩
  by_cases hvu : v = u
  · subst hvu
    obtain ⟨-, rfl⟩ := he.resolve_right fun h0 => hv.ne' h0.1
    rw [setI_self]
    exact ⟨Nat.succ_pos _, rfl, rfl⟩
  · rw [setI_of_ne _ _ hvu]
    exact ⟨hv, rfl, rfl⟩

theorem IsTable.congr (h : IsTable sb t s) (hover : s'.over t = s.over t)
    (hinum : (s'.ic t).inum = (s.ic t).inum) (hcopy : (s'.ic t).copy = (s.ic t).copy)
    (hheld : 0 < (s'.ic t).ref) : IsTable sb t s' := by
  refine ⟨⟨?_, ?_, ?_, ?_⟩, hheld, ?_, ?_⟩
  · rw [hover, hinum]
    exact h.live
  · rw [hcopy]
    exact h.type
  · rw [hcopy]
    exact h.size
  · rw [hover, hinum, hcopy]
    exact h.nohole
  · rw [hover]
    exact h.owned
  · rw [hover, hinum]
    exact h.distinct

/-- Zeroing the entry at the offset that `dirlookup` reports takes that name away and no other. -/
def Erases (sb : Superblock) (dev : Devsw) (t : ISlot) (s : State) : Prop :=
  ∀ name u off s₁, dirlookup sb dev t name s = .ok (some (u, off), s₁) → s₁.tx = true →
    ∃ s₂, writei sb dev t (List.replicate DESIZE 0) off s₁ = .ok (some DESIZE, s₂) ∧
      IsTable sb t s₂ ∧ Reads sb dev t s₂
        (update ((s.over t).dirMap sb (s.ic t).inum) (cname name) none)

theorem IsTable.erases (h : IsTable sb t s) : Erases sb dev t s := by
  intro name u off s₁ hlook htx
  rw [h.dirlookup_eq] at hlook
  cases hj : (s.over t).lookup sb (s.ic t).inum name with
  | none =>
    rw [hj] at hlook
    cases hlook
  | some j =>
    rw [hj] at hlook
    dsimp only at hlook
    obtain ⟨⟨v, s₃⟩, hg, hlook⟩ := bind_ok hlook
    cases hlook
    -- taking the reference leaves the directory alone
    obtain ⟨hdisk, hent⟩ := iget_entry hg
    obtain ⟨hheld, hinum, hcopy⟩ := hent t h.held
    have hover : s₁.over t = s.over t := by
      unfold State.over
      rw [hdisk, hinum, hcopy]
    have h₁ := h.congr hover hinum hcopy hheld
    rw [← hover, ← hinum] at hj ⊢
    obtain ⟨hlt, -⟩ := slots_of_lookup hj
    have hsize := h₁.size_eq
    have hmax := h₁.size_le
    have hoff : DESIZE * j + DESIZE ≤ (s₁.ic t).copy.size := by
      dsimp only [DESIZE] at *
      omega
    have hlen : (List.replicate DESIZE (0 : UInt8)).length = DESIZE := List.length_replicate
    obtain ⟨s₂, hs₂⟩ := h₁.writei_entry dev htx hlt hlen
    have hspec : Run (Fail False s₁.tx) _ (writei sb dev t _ (DESIZE * j)) s₁ :=
      writei_spec h₁.owned h₁.live h₁.not_dev (by omega) (by rw [hlen]; omega) False.elim
    obtain ⟨-, D', hw, hs'⟩ := hspec.of_ok hs₂
    obtain ⟨htab, hmap⟩ := h₁.erase hlen hw (hs'.imp_right And.left) decode_zero_inum hj
    refine ⟨s₂, hs₂, htab, ?_⟩
    rw [← hmap]
    exact htab.reads

section
variable (h : IsDir sb t s) {name : List UInt8} {inum : Nat}
include h

theorem IsDir.dirlink_false (hs : dirlink sb dev t name inum s = .ok (false, s')) :
    Unchanged s s' ∧ ∃ r s₁, dirlookup sb dev t name s = .ok (some r, s₁) := by
  cases hj : (s.over t).lookup sb (s.ic t).inum name with
  | none =>
    rw [h.dirlink_absent inum hj] at hs
    obtain ⟨⟨w, s₁⟩, -, hs⟩ := bind_ok hs
    dsimp only at hs
    split at hs
    · cases hs
    · cases hs
  | some j =>
    have hlook := h.dirlookup_eq dev name
    rw [hj] at hlook
    dsimp only at hlook
    rw [h.dirlink_found inum hj] at hs
    obtain ⟨⟨u, s₁⟩, hg, hs⟩ := bind_ok hs
    obtain ⟨s₂, hput, hsame⟩ := iget_iput hg
    cases (seq_ok hput).symm.trans hs
    rw [seq_ok hg] at hlook
    exact ⟨hsame, _, _, hlook⟩

theorem IsDir.dirlink_of_found {r : ISlot × Nat}
    (hs : dirlookup sb dev t name s = .ok (some r, s₁)) :
    ∃ s', dirlink sb dev t name inum s = .ok (false, s') := by
  rw [h.dirlookup_eq] at hs
  cases hj : (s.over t).lookup sb (s.ic t).inum name with
  | none =>
    rw [hj] at hs
    cases hs
  | some j =>
    rw [hj] at hs
    dsimp only at hs
    obtain ⟨⟨u, s₂⟩, hg, -⟩ := bind_ok hs
    obtain ⟨s₃, hput, -⟩ := iget_iput hg
    rw [h.dirlink_found inum hj, seq_ok hg, seq_ok hput]
    exact ⟨s₃, rfl⟩

/-- `dirlink` succeeds only if the name is not there, and then it has written the entry. -/
theorem IsDir.dirlink_true (ho : Owned sb (s.over t))
    (hs : dirlink sb dev t name inum s = .ok (true, s')) :
    (s.over t).lookup sb (s.ic t).inum name = none ∧ ∃ D',
      Wrote sb (s.ic t).inum (DESIZE * (s.over t).freeEntry sb (s.ic t).inum)
        (Dirent.encode name inum) (s.over t) D' ∧ (s' = s.store t D' ∨ s' = s.put t D') := by
  cases hj : (s.over t).lookup sb (s.ic t).inum name with
  | some j =>
    rw [h.dirlink_found inum hj] at hs
    obtain ⟨⟨u, s₁⟩, hg, hs⟩ := bind_ok hs
    obtain ⟨s₂, hput, -⟩ := iget_iput hg
    cases (seq_ok hput).symm.trans hs
  | none =>
    refine ⟨rfl, ?_⟩
    rw [h.dirlink_absent inum hj] at hs
    obtain ⟨⟨w, s₁⟩, hw, hs⟩ := bind_ok hs
    dsimp only at hs
    by_cases hr : w = some DESIZE
    · rw [if_pos hr] at hs
      cases hs
      have hsize := h.size_eq
      have hle := freeEntry_le sb (s.over t) (s.ic t).inum
      have hlen := encode_length name inum
      have hoff : DESIZE * (s.over t).freeEntry sb (s.ic t).inum ≤ (s.ic t).copy.size := by
        rw [hsize]
        exact Nat.mul_le_mul_left _ hle
      -- a write beyond the largest size would have returned -1
      have hfit : DESIZE * (s.over t).freeEntry sb (s.ic t).inum +
          (Dirent.encode name inum).length ≤ MAXFILE * BSIZE := by
        by_contra hbig
        rw [writei_too_big h.not_dev (by omega)] at hw
        cases hw
        cases hr
      have hspec : Run (Fail False s.tx) _ (writei sb dev t _ _) s :=
        writei_spec ho h.live h.not_dev hoff hfit False.elim
      obtain ⟨-, D', hwrote, hs'⟩ := hspec.of_ok hw
      exact ⟨D', hwrote, hs'.imp_right And.left⟩
    · rw [if_neg hr] at hs
      cases hs

end

/-- Of every held directory whose blocks are there and whose names are different: `dirlookup` is the
lookup in a finite map from names of at most `DIRSIZ` bytes; `dirlink` returns -1, and changes
nothing, exactly when the name is found; when it returns 0 the map has the new name too, and the
names are still different; and zeroing an entry takes its name away. -/
theorem directory_is_map (h : IsTable sb t s) (name : List UInt8) {inum : Nat} (h0 : 0 < inum)
    (h16 : inum < 65536) :
    Reads sb dev t s ((s.over t).dirMap sb (s.ic t).inum) ∧ Erases sb dev t s ∧
    ((∃ s', dirlink sb dev t name inum s = .ok (false, s')) ↔
      ∃ r s₁, dirlookup sb dev t name s = .ok (some r, s₁)) ∧
    (∀ s', dirlink sb dev t name inum s = .ok (false, s') → Unchanged s s') ∧
    ∀ s', dirlink sb dev t name inum s = .ok (true, s') → IsTable sb t s' ∧
      Reads sb dev t s'
        (update ((s.over t).dirMap sb (s.ic t).inum) (cname name) (some inum)) ∧
      Erases sb dev t s' := by
  refine ⟨h.reads, h.erases, ⟨?_, ?_⟩, fun s' hs => (h.dirlink_false hs).1, fun s' hs => ?_⟩
  · rintro ⟨s', hs⟩
    exact (h.dirlink_false hs).2
  · rintro ⟨r, s₁, hs⟩
    exact h.dirlink_of_found hs
  · obtain ⟨hn, D', hw, hs'⟩ := h.dirlink_true h.owned hs
    obtain ⟨htab, hmap⟩ := h.insert (encode_length ..) hw hs' rfl h0 h16 hn rfl
    refine ⟨htab, ?_, htab.erases⟩
    rw [← hmap]
    exact htab.reads

/-- Inside a transaction, with the root directory of `D` locked and read. -/
def rootLocked (D : Disk) : State :=
  { (boot D).setI 0 ⟨ROOTINO, 1, true, true, D.ino ROOTINO⟩ with tx := true }

theorem rootLocked_over (D : Disk) : (rootLocked D).over 0 = D := over_eq rfl

theorem rootImage_distinct : rootImage.DistinctNames mkfsSb ROOTINO := by
  have hslot : ∀ k v w, k < rootImage.entries ROOTINO →
      rootImage.slots mkfsSb ROOTINO k = some (v, w) → k < 2 ∧
        v = if k = 0 then dot else dotdot := by
    intro k v w hk hv
    have hlt : k < 2 := by
      by_contra hge
      rw [slots_of_inum (by rw [rootImage_dirents k hk, if_neg hge])] at hv
      cases hv
    have hdots := rootImage_mkfs.dots
    unfold Disk.slots at hv
    rw [rootImage_dirents k hk, if_pos hlt, if_neg (by decide)] at hv
    obtain ⟨rfl, -⟩ := Prod.mk.inj (Option.some.inj hv)
    refine ⟨hlt, ?_⟩
    split
    next h0 => rw [h0, hdots.2.2.1]
    next h0 => rw [(by omega : k = 1), hdots.2.2.2.2]
  intro i j hi hj k v w hv hw
  obtain ⟨h1, h2⟩ := hslot i k v hi hv
  obtain ⟨h3, h4⟩ := hslot j k w hj hw
  rw [h2] at h4
  by_cases hi0 : i = 0
  · by_cases hj0 : j = 0
    · omega
    · rw [if_pos hi0, if_neg hj0] at h4
      cases h4
  · by_cases hj0 : j = 0
    · rw [if_neg hi0, if_pos hj0] at h4
      cases h4
    · omega

theorem rootLocked_table : IsTable mkfsSb 0 (rootLocked rootImage) := by
  refine ⟨⟨?_, rfl, by decide, ?_⟩, by decide, ?_, ?_⟩
  · rw [rootLocked_over]
    exact rootImage_live.2 rfl
  · rw [rootLocked_over]
    exact rootImage_ok.nohole ROOTINO (rootImage_live.2 rfl)
  · rw [rootLocked_over]
    exact rootImage_ok.toOwned
  · rw [rootLocked_over]
    exact rootImage_distinct

/-- A name is put into the root directory. -/
theorem directory_is_map_root : ∃ s', dirlink mkfsSb nullDev 0 [97] 7 (rootLocked rootImage) =
    .ok (true, s') ∧ IsTable mkfsSb 0 s' ∧ ∃ f, Reads mkfsSb nullDev 0 s' f ∧
      f [97] = some 7 ∧ f dot = some ROOTINO := by
  obtain ⟨-, -, -, -, hmap⟩ := @directory_is_map _ nullDev _ _ rootLocked_table [97] 7 (by decide)
    (by decide)
  have hok : (match dirlink mkfsSb nullDev 0 [97] 7 (rootLocked rootImage) with
      | .ok (b, _) => b
      | .error _ => false) = true := by
    decide +kernel
  split at hok
  next b s' hs =>
    subst hok
    obtain ⟨htab, hreads, -⟩ := hmap s' hs
    refine ⟨s', hs, htab, _, hreads, update_self .., ?_⟩
    rw [rootLocked_over]
    decide +kernel
  · cases hok

/-- Of the inode number 65536 the entry keeps 0, so the new name is not found.  And in a directory
with a block missing a `dirlink` that returns -1 has allocated it. -/
theorem dirlink_loses : (∃ s' s'', dirlink mkfsSb nullDev 0 [97] 65536 (rootLocked rootImage) =
      .ok (true, s') ∧ dirlookup mkfsSb nullDev 0 [97] s' = .ok (none, s'')) ∧
    ∃ s', dirlink mkfsSb nullDev 0 dot 7 (rootLocked holedImage) = .ok (false, s') ∧
      (rootLocked holedImage).disk.bit 60 = false ∧ s'.disk.bit 60 = true := by
  constructor
  · obtain ⟨⟨r, s'⟩, hs, h⟩ := exists_ok
      (r := dirlink mkfsSb nullDev 0 [97] 65536 (rootLocked rootImage))
      (p := fun x => x.1 && (dirlookup mkfsSb nullDev 0 [97] x.2).toOption.any (·.1.isNone))
      (by decide +kernel)
    obtain ⟨rfl, h⟩ := Bool.and_eq_true_iff.1 h
    obtain ⟨⟨o, s''⟩, hs', ho⟩ := exists_ok h
    obtain rfl := Option.isNone_iff_eq_none.1 ho
    exact ⟨s', s'', hs, hs'⟩
  · obtain ⟨⟨r, s'⟩, hs, h⟩ := exists_ok (r := dirlink mkfsSb nullDev 0 dot 7 (rootLocked holedImage))
      (p := fun x => !x.1 && x.2.disk.bit 60) (by decide +kernel)
    obtain ⟨hr, h⟩ := Bool.and_eq_true_iff.1 h
    obtain rfl : r = false := by simpa using hr
    exact ⟨s', hs, by decide, h⟩

end Xv6.Fs
