import Mathlib.Data.List.Rotate
import Mathlib.Data.List.TakeWhile
import Mathlib.Data.String.Basic
import Mathlib.Logic.Relation
import Mathlib.Tactic
import QueryPlan.Document.FragmentIndex

/-!
# The search for cycles

`Visits` tells what a search does with some names, one after another: a name on the path closes a
cycle, one that is finished or not known is passed over, and any other one is explored and then
finished. There is fuel for all of it (`visits_foldl`), so what holds of a search is shown by one
induction along `Visits` each.

A cycle that is reported runs along spreads and passes no name twice (`Visits.reported`). Of no two
names of which the first one spreads the second one, the second one may be missing when the first
one is finished: it was finished before, or a reported cycle goes through both (`Explained`). The
name of a strongly connected part that is finished first has a successor there that was not, so a
cycle of the part is reported (`exists_cycle_through`).
-/

set_option autoImplicit false

namespace QueryPlan

namespace CycleSearch

variable {spreads : String → Option (List String)}

/-! ## Following spreads -/

/-- The first name is known, and spreads the second one. -/
def Leads (spreads : String → Option (List String)) (name name' : String) : Prop :=
  ∃ names, spreads name = some names ∧ name' ∈ names

/-- The first name leads to the second one, which is known too. -/
def Links (spreads : String → Option (List String)) (name name' : String) : Prop :=
  Leads spreads name name' ∧ (spreads name').isSome

theorem Leads.known {x y : String} (h : Leads spreads x y) : (spreads x).isSome := by
  obtain ⟨names, hnames, -⟩ := h
  rw [hnames]
  rfl

/-- The names lead from each to the next, and the last one is the first again. -/
def Closes (spreads : String → Option (List String)) (cycle : List String) : Prop :=
  cycle.IsChain (Leads spreads) ∧ ∃ name inner, cycle = name :: inner ++ [name]

namespace Closes

variable {cycle : List String} {x y : String}

/-- Every name but the last one leads on, and the last one is the first again. -/
theorem known (h : Closes spreads cycle) (hx : x ∈ cycle) : (spreads x).isSome := by
  obtain ⟨hchain, name, inner, rfl⟩ := h
  have hinit : ∀ x ∈ name :: inner, (spreads x).isSome := by
    intro x hx
    obtain ⟨before, after, hsplit⟩ := List.append_of_mem hx
    rw [hsplit, List.append_assoc] at hchain
    have hnext := (List.isChain_append.1 hchain).2.1
    -- some name follows, be it the one that closes the cycle
    cases after with
    | nil => exact (List.isChain_cons_cons.1 hnext).1.known
    | cons y after => exact (List.isChain_cons_cons.1 hnext).1.known
  rcases List.mem_append.1 hx with hx | hx
  · exact hinit x hx
  · exact List.mem_singleton.1 hx ▸ hinit name List.mem_cons_self

/-- A cycle leads from each of its names to each of them. -/
theorem transGen (h : Closes spreads cycle) (hx : x ∈ cycle) (hy : y ∈ cycle) :
    Relation.TransGen (Links spreads) x y := by
  have hknown {n : String} (hn : n ∈ cycle) := h.known hn
  obtain ⟨hchain, name, inner, rfl⟩ := h
  -- along a chain of a transitive relation all that comes before is related to all that follows
  have hlinks : (name :: inner ++ [name]).IsChain (Links spreads) :=
    hchain.imp_of_mem_imp fun _ _ _ hn hleads => ⟨hleads, hknown hn⟩
  have hpairs : (name :: inner ++ [name]).Pairwise (Relation.TransGen (Links spreads)) :=
    (hlinks.imp fun _ _ => .single).pairwise
  have hends := (List.pairwise_append.1 hpairs).2.2
  have hfirst := (List.pairwise_cons.1 hpairs).1
  have hto {n : String} (hn : n ∈ name :: inner ++ [name]) :
      Relation.TransGen (Links spreads) n name := by
    rcases List.mem_append.1 hn with hn | hn
    · exact hends n hn name (List.mem_singleton_self name)
    · exact List.mem_singleton.1 hn ▸ hends name List.mem_cons_self name (List.mem_singleton_self _)
  have hfrom {n : String} (hn : n ∈ name :: inner ++ [name]) :
      Relation.TransGen (Links spreads) name n := by
    rcases List.mem_cons.1 hn with rfl | hn
    · exact hto List.mem_cons_self
    · exact hfirst n hn
  exact (hto hx).trans (hfrom hy)

end Closes

/-! ## Rotations -/

theorem least_cons (first n : String) (rest : List String) :
    least first (n :: rest) = least (min first n) rest := by
  rw [least, List.foldl_cons, ← least, min_def]
  by_cases h : first ≤ n
  · rw [if_pos h, if_neg (not_lt.2 h)]
  · rw [if_neg h, if_pos (not_le.1 h)]

theorem least_mem (first : String) (rest : List String) : least first rest ∈ first :: rest := by
  induction rest generalizing first with
  | nil => exact List.mem_cons_self
  | cons n rest ih =>
      rw [least_cons]
      rcases List.mem_cons.1 (ih (min first n)) with h | h
      · rw [h]
        rcases min_choice first n with hmin | hmin <;> simp [hmin]
      · exact List.mem_cons_of_mem _ (List.mem_cons_of_mem _ h)

theorem least_le {first n : String} {rest : List String} (hn : n ∈ first :: rest) :
    least first rest ≤ n := by
  induction rest generalizing first n with
  | nil => exact (List.mem_singleton.1 hn).ge
  | cons m rest ih =>
      rw [least_cons]
      have hmin : least (min first m) rest ≤ min first m := ih List.mem_cons_self
      rcases List.mem_cons.1 hn with rfl | hn
      · exact hmin.trans (min_le_left _ _)
      · rcases List.mem_cons.1 hn with rfl | hn
        · exact hmin.trans (min_le_right _ _)
        · exact ih (List.mem_cons_of_mem _ hn)

theorem mem_rotate {names : List String} {n : String} : n ∈ rotate names ↔ n ∈ names := by
  cases names with
  | nil => rfl
  | cons first rest =>
      rw [rotate, List.mem_append, or_comm, ← List.mem_append, List.takeWhile_append_dropWhile]

/-- Names are rotated to where the least of them stands first. -/
theorem rotate_eq {before after : List String} {m : String}
    (hleast : ∀ n ∈ before ++ m :: after, m ≤ n) (hm : m ∉ before) :
    rotate (before ++ m :: after) = m :: after ++ before := by
  obtain ⟨first, rest, hnames⟩ : ∃ first rest, before ++ m :: after = first :: rest :=
    List.exists_cons_of_ne_nil (List.append_ne_nil_of_right_ne_nil _ (List.cons_ne_nil _ _))
  have hfirst : least first rest = m := by
    apply le_antisymm
    · exact least_le (hnames ▸ List.mem_append_right _ List.mem_cons_self)
    · exact hleast _ (hnames ▸ least_mem first rest)
  have hskip : ∀ n ∈ before, decide (n ≠ m) = true := fun n hn =>
    decide_eq_true fun heq => hm (heq ▸ hn)
  rw [hnames, rotate, hfirst, ← hnames, List.dropWhile_append_of_pos hskip,
    List.takeWhile_append_of_pos hskip]
  simp

/-- Putting the first name behind the others changes nothing, as it does not come twice. -/
theorem rotate_concat {first : String} {rest : List String} (h : first ∉ rest) :
    rotate (rest ++ [first]) = rotate (first :: rest) := by
  obtain ⟨before, after, hsplit, hm⟩ := List.eq_append_cons_of_mem (least_mem first rest)
  have hleast : ∀ n ∈ first :: rest, least first rest ≤ n := fun n hn => least_le hn
  generalize least first rest = m at hsplit hm hleast
  have hleast' : ∀ n ∈ rest ++ [first], m ≤ n := fun n hn =>
    hleast n ((List.perm_append_singleton first rest).mem_iff.1 hn)
  cases before with
  -- the first name is the least one, so all others go in front of it
  | nil =>
      obtain ⟨rfl, rfl⟩ := List.cons.inj hsplit
      calc rotate (rest ++ [first]) = [first] ++ rest := rotate_eq hleast' h
        _ = first :: rest ++ [] := (List.append_nil _).symm
        _ = rotate (first :: rest) := (rotate_eq hleast List.not_mem_nil).symm
  | cons n before =>
      obtain ⟨rfl, rfl⟩ : first = n ∧ rest = before ++ m :: after := List.cons.inj hsplit
      rw [List.append_assoc] at hleast'
      calc rotate (before ++ m :: after ++ [first])
          = rotate (before ++ m :: (after ++ [first])) := by
            rw [List.append_assoc, List.cons_append]
        _ = m :: (after ++ [first]) ++ before :=
            rotate_eq hleast' fun hmem => hm (List.mem_cons_of_mem _ hmem)
        _ = m :: after ++ first :: before := by simp
        _ = rotate (first :: (before ++ m :: after)) := (rotate_eq hleast hm).symm

/-- Rotations of names that differ come out equal. -/
theorem rotate_eq_of_isRotated {names names' : List String} (h : names.Nodup)
    (hrotated : names.IsRotated names') : rotate names' = rotate names := by
  obtain ⟨count, rfl⟩ := hrotated
  induction count generalizing names with
  | zero => rw [List.rotate_zero]
  | succ count ih =>
      cases names with
      | nil => rw [List.rotate_nil]
      | cons first rest =>
          have hnodup : (rest ++ [first]).Nodup :=
            (List.perm_append_singleton first rest).nodup_iff.2 h
          rw [List.rotate_cons_succ, ih hnodup, rotate_concat (List.nodup_cons.1 h).1]

theorem mem_normalize {cycle : List String} {n : String} :
    n ∈ normalize cycle ↔ n ∈ cycle.dropLast := mem_rotate

/-! ## What a search does -/

/-- The search is done with a name. -/
def finish (s : CycleSearch) (name : String) : CycleSearch :=
  { s with finished := s.finished ++ [name] }

/-- The cycle that a path closes with a name on it. -/
def closing (path : List String) (name : String) : List String :=
  path.dropWhile (· ≠ name) ++ [name]

/-- From the end of a path the search goes to some names in turn, and gets from the first state to
the second one. -/
inductive Visits (spreads : String → Option (List String)) :
    List String → CycleSearch → List String → CycleSearch → Prop
  | nil {path s} : Visits spreads path s [] s
  | closes {path s name rest s'} : name ∈ path →
      Visits spreads path (s.report (closing path name)) rest s' →
      Visits spreads path s (name :: rest) s'
  | passes {path s name rest s'} : name ∉ path → (name ∈ s.finished ∨ spreads name = none) →
      Visits spreads path s rest s' → Visits spreads path s (name :: rest) s'
  | explores {path s name names s₁ rest s'} : name ∉ path → name ∉ s.finished →
      spreads name = some names → Visits spreads (path ++ [name]) s names s₁ →
      Visits spreads path (s₁.finish name) rest s' → Visits spreads path s (name :: rest) s'

/-- A path as long as all known names leaves none to be visited. -/
theorem notMem_known_of_length_le {known path : List String} {name : String}
    (hpath : path.Nodup) (hsub : path ⊆ known) (hlen : known.length ≤ path.length)
    (hnew : name ∉ path) : name ∉ known := by
  intro hname
  have hnodup : (name :: path).Nodup := List.nodup_cons.2 ⟨hnew, hpath⟩
  have hle := (hnodup.subperm (List.cons_subset.2 ⟨hname, hsub⟩)).length_le
  rw [List.length_cons] at hle
  omega

theorem nodup_concat {path : List String} {name : String} (hpath : path.Nodup)
    (hnew : name ∉ path) : (path ++ [name]).Nodup :=
  hpath.append (List.nodup_singleton name) fun _ hn hn' => hnew (List.mem_singleton.1 hn' ▸ hn)

section Visit

variable {fuel : Nat} {path names : List String} {s : CycleSearch} {name : String}

theorem visit_of_mem (h : name ∈ path) :
    visit spreads fuel path s name = s.report (closing path name) := by
  unfold visit
  rw [if_pos h]
  rfl

theorem visit_of_passed (hnew : name ∉ path) (h : name ∈ s.finished ∨ spreads name = none) :
    visit spreads fuel path s name = s := by
  unfold visit
  rw [if_neg hnew]
  rcases h with hdone | hnone
  · rw [if_pos hdone]
  · rw [hnone]
    cases fuel <;> simp

theorem visit_of_known (hnew : name ∉ path) (hopen : name ∉ s.finished)
    (hnames : spreads name = some names) : visit spreads (fuel + 1) path s name =
      (names.foldl (visit spreads fuel (path ++ [name])) s).finish name := by
  unfold visit
  rw [if_neg hnew, if_neg hopen, hnames]
  rfl

/-- With fuel for every known name that is not on the path, the search goes through all names. -/
theorem visits_foldl {known : List String} (hknown : ∀ n, (spreads n).isSome → n ∈ known)
    (hpath : path.Nodup) (hsub : path ⊆ known) (hfuel : known.length ≤ fuel + path.length)
    (names : List String) (s : CycleSearch) :
    Visits spreads path s names (names.foldl (visit spreads fuel path) s) := by
  induction fuel using Nat.strongRecOn generalizing path names s with
  | ind fuel ih =>
      induction names generalizing s with
      | nil => exact .nil
      | cons name rest ihrest =>
          rw [List.foldl_cons]
          by_cases hmem : name ∈ path
          · rw [visit_of_mem hmem]
            exact .closes hmem (ihrest _)
          by_cases hpassed : name ∈ s.finished ∨ spreads name = none
          · rw [visit_of_passed hmem hpassed]
            exact .passes hmem hpassed (ihrest s)
          -- exploring makes the path longer by a known name, and needs less fuel for that
          · obtain ⟨hopen, hsome⟩ := not_or.1 hpassed
            obtain ⟨names, hnames⟩ := Option.ne_none_iff_exists'.1 hsome
            have hname : name ∈ known := hknown name (Option.isSome_iff_ne_none.2 hsome)
            obtain ⟨fuel', rfl⟩ : ∃ fuel', fuel = fuel' + 1 := by
              apply Nat.exists_eq_succ_of_ne_zero
              rintro rfl
              exact notMem_known_of_length_le hpath hsub (by omega) hmem hname
            have hsub' : path ++ [name] ⊆ known :=
              List.append_subset.2 ⟨hsub, List.cons_subset.2 ⟨hname, List.nil_subset _⟩⟩
            have hfuel' : known.length ≤ fuel' + (path ++ [name]).length := by
              rw [List.length_append, List.length_singleton]
              omega
            rw [visit_of_known hmem hopen hnames]
            exact .explores hmem hopen hnames
              (ih fuel' (Nat.lt_succ_self _) (nodup_concat hpath hmem) hsub' hfuel' names s)
              (ihrest _)

end Visit

variable {path names : List String} {s s' : CycleSearch}

/-! ## What a search has seen -/

theorem cycles_prefix_report (s : CycleSearch) (cycle : List String) :
    s.cycles <+: (s.report cycle).cycles := by
  unfold report
  split
  · exact List.prefix_refl _
  · exact List.prefix_append _ _

@[simp] theorem finished_report (s : CycleSearch) (cycle : List String) :
    (s.report cycle).finished = s.finished := by
  unfold report
  split <;> rfl

/-- Nothing that was seen is forgotten. -/
theorem Visits.grows (h : Visits spreads path s names s') :
    s.cycles <+: s'.cycles ∧ s.finished <+: s'.finished := by
  induction h with
  | nil => exact ⟨List.prefix_refl _, List.prefix_refl _⟩
  | @closes path s name rest s' _ _ ih =>
      rw [finished_report] at ih
      exact ⟨(cycles_prefix_report s _).trans ih.1, ih.2⟩
  | passes _ _ _ ih => exact ih
  | @explores path s name names s₁ rest s' _ _ _ _ _ ih ih' =>
      exact ⟨ih.1.trans ih'.1, (ih.2.trans (List.prefix_append _ _)).trans ih'.2⟩

/-! ### Reported cycles -/

/-- A cycle that is reported is one that was reported before, or that a path closes which runs along
spreads and passes no name twice. -/
theorem Visits.reported (h : Visits spreads path s names s') (hpath : path.Nodup)
    (hchain : ∀ n ∈ names, (path ++ [n]).IsChain (Leads spreads)) {cycle : List String}
    (hcycle : cycle ∈ s'.cycles) : cycle ∈ s.cycles ∨ ∃ path name, name ∈ path ∧ path.Nodup ∧
      (path ++ [name]).IsChain (Leads spreads) ∧ cycle = closing path name := by
  induction h with
  | nil => exact Or.inl hcycle
  | @closes path s name rest s' hmem _ ih =>
      rw [List.forall_mem_cons] at hchain
      rcases ih hpath hchain.2 hcycle with hcycle | hcycle
      · unfold report at hcycle
        split at hcycle
        · exact Or.inl hcycle
        · rcases List.mem_append.1 hcycle with hcycle | hcycle
          · exact Or.inl hcycle
          · exact Or.inr ⟨path, name, hmem, hpath, hchain.1, List.mem_singleton.1 hcycle⟩
      · exact Or.inr hcycle
  | passes _ _ _ ih => exact ih hpath (List.forall_mem_cons.1 hchain).2 hcycle
  | @explores path s name names s₁ rest s' hnew _ hnames _ _ ih ih' =>
      rw [List.forall_mem_cons] at hchain
      -- every name that is gone to next is spread by this one
      have hnext : ∀ n ∈ names, (path ++ [name] ++ [n]).IsChain (Leads spreads) := by
        intro n hn
        refine List.isChain_append.2 ⟨hchain.1, .singleton _, ?_⟩
        intro x hx y hy
        rw [List.getLast?_concat, Option.mem_some] at hx
        rw [List.head?_cons, Option.mem_some] at hy
        subst hx hy
        exact ⟨names, hnames, hn⟩
      rcases ih' hpath hchain.2 hcycle with hcycle | hcycle
      · exact ih (nodup_concat hpath hnew) hnext hcycle
      · exact Or.inr hcycle

/-- A name on the path begins the part of the path that it closes. -/
theorem exists_dropWhile_eq {name : String} (hmem : name ∈ path) :
    ∃ inner, path.dropWhile (· ≠ name) = name :: inner := by
  have hne : path.dropWhile (· ≠ name) ≠ [] := by
    intro hnil
    have hall := List.dropWhile_eq_nil_iff.1 hnil name hmem
    simp at hall
  have hhead : (path.dropWhile (· ≠ name)).head hne = name := by
    have hfirst := List.head_dropWhile_not (· ≠ name) hne
    simpa using hfirst
  have hcons := List.cons_head_tail hne
  rw [hhead] at hcons
  exact ⟨_, hcons.symm⟩

theorem closes_closing {name : String} (hchain : (path ++ [name]).IsChain (Leads spreads))
    (hmem : name ∈ path) : Closes spreads (closing path name) := by
  have hsuffix : closing path name <:+ path ++ [name] := by
    obtain ⟨before, hbefore⟩ := List.dropWhile_suffix (l := path) (· ≠ name)
    exact ⟨before, by rw [closing, ← List.append_assoc, hbefore]⟩
  obtain ⟨inner, hinner⟩ := exists_dropWhile_eq hmem
  exact ⟨hchain.suffix hsuffix, name, inner, by rw [closing, hinner]⟩

theorem dropLast_closing (path : List String) (name : String) :
    (closing path name).dropLast = path.dropWhile (· ≠ name) := List.dropLast_concat

/-- No two cycles of the search are rotations of one another. -/
def Distinct (s : CycleSearch) : Prop :=
  s.cycles.Pairwise fun cycle cycle' => normalize cycle ≠ normalize cycle'

theorem Distinct.report (h : s.Distinct) (cycle : List String) : (s.report cycle).Distinct := by
  unfold CycleSearch.report
  split
  · exact h
  · rename_i hnone
    refine List.pairwise_append.2 ⟨h, List.pairwise_singleton _ _, ?_⟩
    intro c hc c' hc' heq
    rw [List.mem_singleton.1 hc'] at heq
    exact hnone (List.any_eq_true.2 ⟨c, hc, decide_eq_true heq⟩)

theorem Visits.distinct (h : Visits spreads path s names s') (hs : s.Distinct) : s'.Distinct := by
  induction h with
  | nil => exact hs
  | closes _ _ ih => exact ih (hs.report _)
  | passes _ _ _ ih => exact ih hs
  | explores _ _ _ _ _ ih ih' => exact ih' (ih hs)

/-! ### Nothing is missed -/

/-- A reported cycle goes through both names. -/
def Joins (s : CycleSearch) (x y : String) : Prop := ∃ cycle ∈ s.cycles, x ∈ cycle ∧ y ∈ cycle

theorem Joins.mono {x y : String} (h : s.Joins x y) (hs : s.cycles <+: s'.cycles) :
    s'.Joins x y := by
  obtain ⟨cycle, hcycle, hxy⟩ := h
  exact ⟨cycle, hs.subset hcycle, hxy⟩

/-- A cycle joins the names that it goes through, also if a rotation of it was reported before. -/
theorem joins_report {cycle : List String} {x y : String} (hx : x ∈ cycle.dropLast)
    (hy : y ∈ cycle.dropLast) : (s.report cycle).Joins x y := by
  unfold report
  split
  · rename_i hany
    obtain ⟨c, hc, heq⟩ := List.any_eq_true.1 hany
    have heq : normalize c = normalize cycle := of_decide_eq_true heq
    have hthrough {n : String} (hn : n ∈ cycle.dropLast) : n ∈ c := by
      rw [← mem_normalize, ← heq, mem_normalize] at hn
      exact List.mem_of_mem_dropLast hn
    exact ⟨c, hc, hthrough hx, hthrough hy⟩
  · exact ⟨cycle, List.mem_append_right _ (List.mem_singleton_self cycle),
      List.mem_of_mem_dropLast hx, List.mem_of_mem_dropLast hy⟩

/-- The cycle that a path closes goes through the last name of the path. -/
theorem getLast_mem_closing {name last : String} (hmem : name ∈ path)
    (hlast : last ∈ path.getLast?) : last ∈ (closing path name).dropLast := by
  rw [dropLast_closing]
  obtain ⟨inner, hinner⟩ := exists_dropWhile_eq hmem
  have hne : path.dropWhile (· ≠ name) ≠ [] := by
    rw [hinner]
    exact List.cons_ne_nil _ _
  obtain ⟨hpath, rfl⟩ := List.mem_getLast?_eq_getLast hlast
  rw [← (List.dropWhile_suffix (l := path) (· ≠ name)).getLast hne]
  exact List.getLast_mem hne

/-- Whatever a name that is finished leads to was finished before it, or is joined to it. -/
def Explained (spreads : String → Option (List String)) (s : CycleSearch) : Prop :=
  ∀ ⦃x y⦄, x ∈ s.finished → Links spreads x y →
    s.finished.idxOf y < s.finished.idxOf x ∨ s.Joins x y

theorem Explained.report (h : Explained spreads s) (cycle : List String) :
    Explained spreads (s.report cycle) := by
  intro x y hx hxy
  rw [finished_report] at hx ⊢
  exact (h hx hxy).imp_right fun hjoins => hjoins.mono (cycles_prefix_report s cycle)

/-- A name that is finished is explained if all that it leads to is finished or joined to it. -/
theorem Explained.finish (h : Explained spreads s) {name : String}
    (hname : ∀ n, Links spreads name n → n ∈ s.finished ∨ s.Joins name n) :
    Explained spreads (s.finish name) := by
  intro x y hx hxy
  show (s.finished ++ [name]).idxOf y < (s.finished ++ [name]).idxOf x ∨ s.Joins x y
  by_cases hold : x ∈ s.finished
  · refine (h hold hxy).imp_left fun hlt => ?_
    have hy : y ∈ s.finished :=
      List.idxOf_lt_length_iff.1 (hlt.trans (List.idxOf_lt_length_iff.2 hold))
    rwa [List.idxOf_append_of_mem hold, List.idxOf_append_of_mem hy]
  · have hx : x ∈ s.finished ++ [name] := hx
    obtain rfl : x = name :=
      List.mem_singleton.1 ((List.mem_append.1 hx).resolve_left hold)
    refine (hname y hxy).imp_left fun hy => ?_
    rw [List.idxOf_append_of_mem hy, List.idxOf_append_of_notMem hold]
    exact (List.idxOf_lt_length_iff.2 hy).trans_le (Nat.le_add_right _ _)

/-- Whatever a search finishes is explained, and every known name that it went to is finished or
joined to the last name of the path. -/
theorem Visits.explained (h : Visits spreads path s names s') :
    (Explained spreads s → Explained spreads s') ∧
      ∀ n ∈ names, (spreads n).isSome →
        n ∈ s'.finished ∨ ∃ last ∈ path.getLast?, s'.Joins last n := by
  induction h with
  | nil => exact ⟨id, fun _ hn => absurd hn List.not_mem_nil⟩
  | @closes path s name rest s' hmem hrest ih =>
      refine ⟨fun hs => ih.1 (hs.report _), fun n hn hknown => ?_⟩
      rcases List.mem_cons.1 hn with rfl | hn
      · -- the name is on the path, so the path is not empty
        obtain ⟨last, hlast⟩ : ∃ last, last ∈ path.getLast? :=
          ⟨_, List.getLast?_eq_some_getLast (List.ne_nil_of_mem hmem)⟩
        have hjoins : (s.report (closing path n)).Joins last n := by
          apply joins_report
          · exact getLast_mem_closing hmem hlast
          · rw [dropLast_closing]
            obtain ⟨inner, hinner⟩ := exists_dropWhile_eq hmem
            exact hinner ▸ List.mem_cons_self
        exact Or.inr ⟨last, hlast, hjoins.mono hrest.grows.1⟩
      · exact ih.2 n hn hknown
  | @passes path s name rest s' _ hwhy hrest ih =>
      refine ⟨ih.1, fun n hn hknown => ?_⟩
      rcases List.mem_cons.1 hn with rfl | hn
      · rcases hwhy with hdone | hnone
        · exact Or.inl (hrest.grows.2.subset hdone)
        · rw [hnone] at hknown
          cases hknown
      · exact ih.2 n hn hknown
  | @explores path s name names s₁ rest s' _ _ hnames _ hrest ih ih' =>
      refine ⟨fun hs => ih'.1 ((ih.1 hs).finish ?_), fun n hn hknown => ?_⟩
      · rintro n ⟨⟨names', hnames', hn⟩, hknown⟩
        rw [hnames, Option.some_inj] at hnames'
        subst hnames'
        refine (ih.2 n hn hknown).imp_right ?_
        rintro ⟨last, hlast, hjoins⟩
        rw [List.getLast?_concat, Option.mem_some] at hlast
        exact hlast ▸ hjoins
      · rcases List.mem_cons.1 hn with rfl | hn
        · exact Or.inl (hrest.grows.2.subset (List.mem_append_right _ (List.mem_singleton_self n)))
        · exact ih'.2 n hn hknown

/-! ## Whole searches -/

/-- A search from the start, along all known names. -/
theorem explained_of_visits (h : Visits spreads [] start names s) : Explained spreads s :=
  h.explained.1 fun _ _ hx => absurd hx List.not_mem_nil

theorem finished_of_visits (h : Visits spreads [] start names s) {n : String} (hn : n ∈ names)
    (hknown : (spreads n).isSome) : n ∈ s.finished := by
  rcases h.explained.2 n hn hknown with hdone | ⟨last, hlast, -⟩
  · exact hdone
  · cases hlast

theorem distinct_of_visits (h : Visits spreads [] start names s) : s.Distinct :=
  h.distinct .nil

/-- What is reported is a cycle, which passes no name twice. -/
theorem closes_of_visits (h : Visits spreads [] start names s) {cycle : List String}
    (hcycle : cycle ∈ s.cycles) : Closes spreads cycle ∧ cycle.dropLast.Nodup := by
  have hsingle : ∀ n ∈ names, ([] ++ [n]).IsChain (Leads spreads) := fun n _ => .singleton n
  rcases h.reported .nil hsingle hcycle with hnone | ⟨path, name, hmem, hnodup, hchain, rfl⟩
  · cases hnone
  · refine ⟨closes_closing hchain hmem, ?_⟩
    rw [dropLast_closing]
    exact hnodup.sublist (List.dropWhile_sublist _)

/-- **A strongly connected part with a cycle has a reported one.** Where known names lead from a
name back to it, a cycle is reported all of whose names lead to that name and can be reached from
it. -/
theorem exists_cycle_through (h : Visits spreads [] start names s)
    (hnames : ∀ n, (spreads n).isSome → n ∈ names) {x : String}
    (hx : Relation.TransGen (Links spreads) x x) : ∃ cycle ∈ s.cycles, ∀ n ∈ cycle,
      Relation.TransGen (Links spreads) x n ∧ Relation.TransGen (Links spreads) n x := by
  let part : Set String :=
    {n | Relation.TransGen (Links spreads) x n ∧ Relation.TransGen (Links spreads) n x}
  have hdone {n : String} (hn : n ∈ part) : n ∈ s.finished := by
    obtain ⟨_, hlinks, -⟩ := Relation.TransGen.head'_iff.1 hn.2
    have hknown := hlinks.1.known
    exact finished_of_visits h (hnames n hknown) hknown
  -- the name of the part that was finished first leads to one that was not finished before it
  obtain ⟨u, hu, hfirst⟩ := Set.exists_min_image part s.finished.idxOf
    (s.finished.finite_toSet.subset fun n hn => hdone hn) ⟨x, hx, hx⟩
  obtain ⟨v, huv, hvu⟩ := Relation.TransGen.head'_iff.1 (hu.2.trans hu.1)
  have hv : v ∈ part := ⟨hu.1.tail huv, Relation.TransGen.trans_right hvu hu.2⟩
  have hjoins : s.Joins u v :=
    (explained_of_visits h (hdone hu) huv).resolve_left (hfirst v hv).not_gt
  obtain ⟨cycle, hcycle, hmem, -⟩ := hjoins
  obtain ⟨hcloses, -⟩ := closes_of_visits h hcycle
  exact ⟨cycle, hcycle, fun n hn =>
    ⟨hu.1.trans (hcloses.transGen hmem hn), (hcloses.transGen hn hmem).trans hu.2⟩⟩

end CycleSearch

/-! ## The search of an index -/

namespace FragmentIndex

variable {m : OrderedMap String FragmentNode} {a : SyntaxArena}

theorem isSome_spreadsOf {name : String} : (spreadsOf m a name).isSome ↔ name ∈ m.keys := by
  rw [spreadsOf, Option.isSome_map, Option.isSome_iff_exists, OrderedMap.mem_keys_iff]

/-- The search goes to all fragments, and has fuel to explore them. -/
theorem visits_search (m : OrderedMap String FragmentNode) (a : SyntaxArena) :
    CycleSearch.Visits (spreadsOf m a) [] .start m.keys (search m a) := by
  have hsize : m.keys.length ≤ m.size + ([] : List String).length := by
    simp [OrderedMap.keys, OrderedMap.size]
  exact CycleSearch.visits_foldl (fun _ hknown => isSome_spreadsOf.1 hknown) List.nodup_nil
    (List.nil_subset _) hsize _ _

end FragmentIndex

end QueryPlan
