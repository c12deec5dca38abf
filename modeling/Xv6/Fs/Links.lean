import Xv6.Fs.Ownership

/-!
# Link counts and dangling entries

The tree of names is exact (`Tree.Exact`) as long as nothing is put into a directory
that has been removed, and no entry dangles as long as, besides, no directory is removed
while another one has it as `..` (`Tree.Rooted`).  The calls check neither: a removed
directory can be a current directory and the parent of a removed one.
-/

namespace Xv6.Fs

variable {sb : Superblock} {dev : Devsw} {m : Mode} {D : Disk} {s s' : State}

/-! ## The invariant -/

/-- Link counts. -/
def Mode.counts : Mode := ⟨True, False, False.elim⟩

/-- Link counts, and no dangling entries. -/
def Mode.names : Mode := ⟨True, True, id⟩

/-- The counts fit into a `short`, and inode numbers into a directory entry. -/
structure Small (sb : Superblock) : Prop where
  inum : sb.ninodes ≤ 65536
  refs : 32 * sb.nblocks + 1 < 65536

theorem small_mkfsSb : Small mkfsSb := ⟨by decide, by decide⟩

theorem ready_of_exact (hsb : Small sb) (h : Good sb m s.holders [] s) (hk : Kept sb s)
    (hx : (s.disk.tree sb).Exact) : Ready sb s := by
  refine ⟨hk, hsb.inum, fun i => ?_, hx.zero⟩
  by_cases hi : i = 0
  · rw [hi, hx.none 0 hx.zero]
    decide
  · have hle := (h.disk.refs_le hi).2
    have := hsb.refs
    rw [hx.count i hi]
    omega

theorem sound_of_rooted (h : Good sb m s.holders [] s) (hx : (s.disk.tree sb).Exact)
    (hr : (s.disk.tree sb).Rooted) : Sound sb s := by
  refine ⟨fun i hl ht k hk hi => ?_, Disk.tree_live.mp (by rw [hx.root.1]; decide), fun t ht => ?_⟩
  · rw [← Disk.tree_ent hl ht hk] at hi ⊢
    exact Disk.tree_live.mp (hr.alive hx (Disk.tree_dir.mpr ⟨hl, ht⟩) hi)
  · refine ⟨h.range t ht, h.held t ?_⟩
    rw [h.ref] at ht
    exact ht

theorem idle_counts (hsb : Small sb) (h : Good sb .any s.holders [] s) (hf : Files s)
    (hk : Kept sb s) (hx : (s.disk.tree sb).Exact) : Idle sb .counts s :=
  ⟨{ h with linked := fun _ => hk.linked h, sound := False.elim }, hf,
    fun _ => ready_of_exact hsb h hk hx⟩

theorem idle_names (hsb : Small sb) (h : Good sb .any s.holders [] s) (hf : Files s)
    (hk : Kept sb s) (hx : (s.disk.tree sb).Exact) (hr : (s.disk.tree sb).Rooted) :
    Idle sb .names s :=
  ⟨{ h with linked := fun _ => hk.linked h, sound := fun _ => sound_of_rooted h hx hr }, hf,
    fun _ => ready_of_exact hsb h hk hx⟩

/-! ## What a path leads to -/

theorem walk_dir (h : Ok sb D) (l : List (List UInt8)) :
    ∀ {i d : Nat} {last name : List UInt8}, i < sb.ninodes →
      D.walk sb true i last l = some (d, name) → D.Live sb d ∧ (D.ino d).type = T_DIR := by
  induction l with
  | nil => exact fun _ hw => nomatch hw
  | cons x rest ih =>
    intro i d last name hi hw
    unfold Disk.walk at hw
    split at hw
    · cases hw
    next ht =>
      have ht : (D.ino i).type = T_DIR := not_not.mp ht
      have hl : D.Live sb i := ⟨hi, by rw [ht]; decide⟩
      split at hw
      · cases hw
        exact ⟨hl, ht⟩
      · obtain ⟨k, hk, hw⟩ := Option.bind_eq_some_iff.mp hw
        exact ih (h.dirents i hl ht k (search_some hk).1) hw

theorem resolve_dir (h : Idle sb m s) {p : Pid} {path name : List UInt8} {d : Nat}
    (hr : s.resolve sb p path true = some (d, name)) :
    s.disk.Live sb d ∧ (s.disk.ino d).type = T_DIR := by
  unfold State.resolve at hr
  dsimp only at hr
  split at hr
  · exact walk_dir h.good.disk _ sb.root hr
  · obtain ⟨c, hc, hw⟩ := Option.bind_eq_some_iff.mp hr
    refine walk_dir h.good.disk _ (h.good.range c ?_) hw
    rw [h.good.ref]
    exact Nat.add_pos_left (holders_cwd hc) _

/-! ## The conditions -/

/-- The call puts no name into a directory without links. -/
def IntoLinked (sb : Superblock) (s : State) (x : Pid × Act) : Prop :=
  ∀ d, x.2.adds sb s x.1 d → (s.disk.ino d).nlink ≠ 0

/-- The call removes no directory that is `..` of another one. -/
def NoOrphans (sb : Superblock) (s : State) (x : Pid × Act) : Prop :=
  ∀ d k, x.2.removes sb s x.1 d k → ∀ c, s.disk.Live sb c → (s.disk.ino c).type = T_DIR →
    c ≠ (s.disk.dirent sb d k).inum → (s.disk.dirent sb c 1).inum ≠ (s.disk.dirent sb d k).inum

theorem IntoLinked.tree {x : Pid × Act} (h : IntoLinked sb s x) (hi : Idle sb m s) (d : Nat)
    (hd : x.2.adds sb s x.1 d) : (s.disk.tree sb).nlink d ≠ 0 := by
  have hl : s.disk.Live sb d := by
    obtain ⟨p, a⟩ := x
    cases a with
    | openFile path omode => exact (resolve_dir hi hd.2.choose_spec.1).1
    | mkdir path | mknod path major minor | link old new =>
      exact (resolve_dir hi hd.choose_spec.1).1
    | _ => exact hd.elim
  rw [Disk.tree_nlink hl]
  exact h d hd

theorem NoOrphans.tree {x : Pid × Act} (h : NoOrphans sb s x) (hi : Idle sb m s)
    (hx : (s.disk.tree sb).Exact) (d k : Nat) (hd : x.2.removes sb s x.1 d k) (c : Nat)
    (hc : (s.disk.tree sb).type c = T_DIR) (hne : c ≠ ((s.disk.tree sb).ent d k).inum) :
    (s.disk.tree sb).up c ≠ ((s.disk.tree sb).ent d k).inum := by
  have hent : (s.disk.tree sb).ent d k = s.disk.dirent sb d k := by
    obtain ⟨p, a⟩ := x
    cases a with
    | unlink path =>
      obtain ⟨name, hr, hk⟩ := hd
      obtain ⟨hl, ht⟩ := resolve_dir hi hr
      exact Disk.tree_ent hl ht (search_some hk).1
    | _ => exact hd.elim
  obtain ⟨hl, ht, h1⟩ := Disk.tree_ent_ne (hx.above c hc).1
  rw [hent] at hne ⊢
  unfold Tree.up
  rw [Disk.tree_ent hl ht h1]
  exact h d k hd c hl ht hne

/-! ## Runs -/

theorem Mkfs.kept (h : Mkfs sb D) : Kept sb (boot D) := by
  intro i hi h0
  change D.Live sb i at hi
  change (D.ino i).nlink = 0 at h0
  have h1 := h.nlink_eq hi
  rw [Disk.tree_nlink hi, h0] at h1
  cases h1

/-- What holds in every state of a run that puts nothing into removed directories. -/
structure Counts (sb : Superblock) (s : State) : Prop where
  idle : Idle sb .counts s
  exact : (s.disk.tree sb).Exact

theorem reach_counts (hsb : Small sb)
    (h : ((machine sb dev (Mkfs sb)).restrict (IntoLinked sb)).Reach s) : Counts sb s := by
  refine h.invariant (fun s hs => ?_) fun s a s' _ hi hstep => ?_
  · obtain ⟨D, hD, rfl⟩ := hs
    exact ⟨idle_counts hsb (boot_good hD.wellFormed) (boot_files D) hD.kept hD.exact, hD.exact⟩
  · obtain ⟨hok, _, r, hr⟩ := hstep
    have hc := (exec_spec (q := False) hi.idle False.elim a.1 a.2).of_ok hr
    obtain ⟨v, ho, hf⟩ := hc.tree trivial
    have hx := (hi.exact.op ho (hok.tree hi.idle) (hi.idle.ready trivial).nlink).frees hf
    exact ⟨idle_counts hsb hc.good hc.files (hc.kept trivial) hx, hx⟩

/-- And no directory is removed that is `..` of another one. -/
structure NoDangling (sb : Superblock) (s : State) : Prop where
  idle : Idle sb .names s
  exact : (s.disk.tree sb).Exact
  rooted : (s.disk.tree sb).Rooted

theorem reach_noDangling (hsb : Small sb)
    (h : ((machine sb dev (Mkfs sb)).restrict fun s x => IntoLinked sb s x ∧
      NoOrphans sb s x).Reach s) : NoDangling sb s := by
  refine h.invariant (fun s hs => ?_) fun s a s' _ hi hstep => ?_
  · obtain ⟨D, hD, rfl⟩ := hs
    exact ⟨idle_names hsb (boot_good hD.wellFormed) (boot_files D) hD.kept hD.exact hD.rooted,
      hD.exact, hD.rooted⟩
  · obtain ⟨⟨hok, hno⟩, _, r, hr⟩ := hstep
    have hc := (exec_spec (q := False) hi.idle False.elim a.1 a.2).of_ok hr
    obtain ⟨v, ho, hf⟩ := hc.tree trivial
    have hinto := hok.tree hi.idle
    have hw := (hi.idle.ready trivial).nlink
    have hx := (hi.exact.op ho hinto hw).frees hf
    have hroot := (hi.rooted.op hi.exact ho hinto
      (fun d k hd _ => hno.tree hi.idle hi.exact d k hd) hw).frees hf
    exact ⟨idle_names hsb hc.good hc.files (hc.kept trivial) hx hroot, hx, hroot⟩

/-! ## Link counts -/

/-- The entries other than `.` that name `i`, in directories that are linked. -/
def Disk.names (D : Disk) (sb : Superblock) (i : Nat) : Set (Nat × Nat) :=
  {x | (D.Live sb x.1 ∧ (D.ino x.1).type = T_DIR ∧ (D.ino x.1).nlink ≠ 0) ∧
    x.2 < D.entries x.1 ∧ cname (D.dirent sb x.1 x.2).name ≠ dot ∧ (D.dirent sb x.1 x.2).inum = i}

theorem names_eq (hx : (D.tree sb).Exact) {i : Nat} (hi : i ≠ 0) :
    D.names sb i = (D.tree sb).refs i := by
  ext ⟨d, k⟩
  refine ⟨fun ⟨⟨hl, ht, hn⟩, hk, hname, he⟩ => ?_, fun ⟨ht, hn, hk, he⟩ => ?_⟩
  · have hd := Disk.tree_dir.mpr ⟨hl, ht⟩
    refine ⟨hd, by rw [Disk.tree_nlink hl]; exact hn, fun h0 => hname ?_, ?_⟩
    · simp only at h0
      rw [h0, ← Disk.tree_ent hl ht (by omega)]
      exact (hx.self d hd).2
    · rw [Disk.tree_ent hl ht hk]
      exact he
  · obtain ⟨hl, ht, hlt⟩ := Disk.tree_ent_ne (by rw [he]; exact hi)
    have hp := hx.plain d k (by rw [he]; exact hi) hk
    rw [Disk.tree_nlink hl] at hn
    rw [Disk.tree_ent hl ht hlt] at hp he
    exact ⟨⟨hl, ht, hn⟩, hlt, hp, he⟩

theorem onlyRoot_rootImage : OnlyRoot rootImage := rfl

theorem rootImage_mkdir_ok :
    IntoLinked mkfsSb (boot rootImage) (0, .mkdir [97]) ∧
      NoOrphans mkfsSb (boot rootImage) (0, .mkdir [97]) := by
  refine ⟨fun d hd => ?_, fun _ _ hd => hd.elim⟩
  obtain ⟨name, hr, -⟩ := hd
  have hroot : (boot rootImage).resolve mkfsSb 0 [97] true = some (1, [97]) := by decide +kernel
  rw [hroot] at hr
  cases hr
  decide

theorem reach_mkdir {ok : State → Pid × Act → Prop} {r : Option Nat}
    (hok : ok (boot rootImage) (0, .mkdir [97]))
    (hr : exec mkfsSb dev 0 (.mkdir [97]) (boot rootImage) = .ok (r, s)) :
    ((machine mkfsSb dev (Mkfs mkfsSb)).restrict ok).Reach s := by
  have h0 : ((machine mkfsSb dev (Mkfs mkfsSb)).restrict ok).Reach (boot rootImage) :=
    .init ⟨rootImage, rootImage_mkfs, rfl⟩
  have hp : ((boot rootImage).proc 0).cwd ≠ none := by decide
  exact .step h0 ⟨hok, step_of_exec hp hr⟩

/-- No directory names `i`; to be evaluated. -/
def Disk.unnamed (D : Disk) (sb : Superblock) (i : Nat) : Bool :=
  (List.range sb.ninodes).all fun d => (D.ino d).type ≠ T_DIR ||
    (List.range (D.entries d)).all fun k => (D.dirent sb d k).inum ≠ i

theorem Disk.names_of_unnamed {i : Nat} (h : D.unnamed sb i = true) : D.names sb i = ∅ := by
  refine Set.eq_empty_iff_forall_notMem.mpr ?_
  rintro ⟨d, k⟩ ⟨⟨hl, ht, -⟩, hk, -, he⟩
  have hd := List.all_eq_true.mp h d (List.mem_range.mpr hl.1)
  simp only [ht, ne_eq, not_true_eq_false, decide_false, Bool.false_or] at hd
  have := List.all_eq_true.mp hd k (List.mem_range.mpr hk)
  exact of_decide_eq_true this he

end Xv6.Fs
