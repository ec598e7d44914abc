import Mathlib.Data.List.Nodup
import Mathlib.Data.List.Perm.Subperm
import AggregateRules.Proofs.Firsts
import AggregateRules.Scope.Basic

/-!
# Proofs/Scope/Names — which names a scope gives out, and which it adopts

Whether it is asked for a name or generates one, a scope declares under a name that is not visible
(`freshName_notMem`).  For a generated name this is a count: among one candidate more than there are
visible names, one is free.  So the short names of a scope that never adopts stay apart
(`Grown.names_nodup`).

Adopting asks for less, a pair of name and scope that is not visible; `adopt_eq` says what comes
in.  The pairs of a scope stay apart whatever it does (`Reached.places_nodup`).
-/

namespace AggregateRules

/-- The name of a binding and the scope it was declared in. -/
def Declaration.place (d : Declaration) : String × String := (d.name, d.scope)

namespace Declarations

@[simp] theorem names_nil : names [] = [] := rfl

@[simp] theorem names_cons (d : Declaration) (ds : Declarations) :
    names (d :: ds) = d.name :: names ds := rfl

@[simp] theorem names_append (ds es : Declarations) : names (ds ++ es) = names ds ++ names es :=
  List.map_append

theorem mem_names {ds : Declarations} {name : String} :
    name ∈ ds.names ↔ ∃ d ∈ ds, d.name = name := List.mem_map

theorem names_nodup_concat {ds : Declarations} {d : Declaration} :
    (names (ds ++ [d])).Nodup ↔ d.name ∉ ds.names ∧ ds.names.Nodup := by
  rw [names_append, List.nodup_append_comm]
  exact List.nodup_cons

/-- The places of bindings, in order. -/
def places (ds : Declarations) : List (String × String) := ds.map Declaration.place

theorem places_nodup_concat {ds : Declarations} {d : Declaration} :
    (places (ds ++ [d])).Nodup ↔ d.place ∉ ds.places ∧ ds.places.Nodup := by
  rw [places, List.map_append, List.nodup_append_comm]
  exact List.nodup_cons

theorem place_notMem_of_name_notMem {ds : Declarations} {d : Declaration}
    (h : d.name ∉ ds.names) : d.place ∉ ds.places := by
  intro hd
  obtain ⟨e, he, hplace⟩ := List.mem_map.mp hd
  exact h (mem_names.mpr ⟨e, he, congrArg Prod.fst hplace⟩)

/-- Bindings of distinct names have distinct places. -/
theorem places_nodup_of_names_nodup {ds : Declarations} (h : ds.names.Nodup) : ds.places.Nodup :=
  List.Nodup.of_map Prod.fst (by rwa [places, List.map_map])

/-- The binding of a place is the only one of it. -/
theorem eq_of_place_eq {ds : Declarations} {d e : Declaration} (h : ds.places.Nodup) (hd : d ∈ ds)
    (he : e ∈ ds) (hplace : d.place = e.place) : d = e := List.inj_on_of_nodup_map h hd he hplace

theorem findLast_eq_none_iff {ds : Declarations} {name : String} :
    ds.findLast name = none ↔ name ∉ ds.names := by
  rw [findLast, List.find?_eq_none, mem_names]
  simp

theorem mem_of_findLast {ds : Declarations} {d : Declaration} {name : String}
    (h : ds.findLast name = some d) : d ∈ ds ∧ d.name = name := by
  have hname : d.name = name := by simpa using List.find?_some h
  exact ⟨List.mem_reverse.mp (List.mem_of_find?_eq_some h), hname⟩

end Declarations

namespace Scope

variable {s : Scope} {d : Declaration} {ds : Declarations} {name : String} {name? : Option String}

/-- The scope with one more binding of its own. -/
def push (s : Scope) (d : Declaration) : Scope := { s with own := s.own ++ [d] }

@[simp] theorem path_push (s : Scope) (d : Declaration) : (s.push d).path = s.path := rfl

@[simp] theorem inherited_push (s : Scope) (d : Declaration) :
    (s.push d).inherited = s.inherited := rfl

@[simp] theorem own_push (s : Scope) (d : Declaration) : (s.push d).own = s.own ++ [d] := rfl

@[simp] theorem visible_push (s : Scope) (d : Declaration) :
    (s.push d).visible = s.visible ++ [d] := (List.append_assoc ..).symm

/-! ## Look-up -/

theorem lookup_eq_none_iff : s.lookup name = none ↔ name ∉ s.visible.names :=
  Declarations.findLast_eq_none_iff

theorem isSome_lookup_iff : (s.lookup name).isSome ↔ name ∈ s.visible.names := by
  rw [← not_iff_not, Bool.not_eq_true, Option.isSome_eq_false_iff, Option.isNone_iff_eq_none,
    lookup_eq_none_iff]

theorem mem_of_lookup (h : s.lookup name = some d) : d ∈ s.visible ∧ d.name = name :=
  Declarations.mem_of_findLast h

/-- **Among names that stay apart a name resolves to the one binding of it.** -/
theorem lookup_eq_some_iff (h : s.visible.names.Nodup) :
    s.lookup name = some d ↔ d ∈ s.visible ∧ d.name = name := by
  refine ⟨mem_of_lookup, ?_⟩
  rintro ⟨hd, rfl⟩
  obtain ⟨e, he⟩ := Option.isSome_iff_exists.mp (isSome_lookup_iff.mpr (List.mem_map_of_mem hd))
  obtain ⟨hmem, hname⟩ := mem_of_lookup he
  rw [he, List.inj_on_of_nodup_map h hmem hd hname]

/-- **A binding that comes last is what its name resolves to.** -/
theorem lookup_push_self (s : Scope) (d : Declaration) : (s.push d).lookup d.name = some d := by
  simp [lookup, Declarations.findLast]

/-! ## Generated names -/

theorem generatedName_injective : Function.Injective generatedName := by
  intro m n h
  have hchars := congrArg String.toList h
  simp only [generatedName, String.toList_append] at hchars
  have hdigits := List.append_cancel_left (List.append_cancel_right hchars)
  have hvalue := congrArg (fun cs => Nat.ofDigitChars 10 cs 0) hdigits
  simpa [Nat.toString_eq_ofList_toDigits] using hvalue

/-- The search for a free number, without a bound: from `start` on it meets `failed` numbers whose
names are taken, and it stops at the number after them. -/
inductive Search (taken : String → Bool) : (start failed found : Nat) → Prop
  | stop {n : Nat} (h : taken (generatedName n) = false) : Search taken n 0 n
  | next {n failed found : Nat} (h : taken (generatedName n) = true)
      (rest : Search taken (n + 1) failed found) : Search taken n (failed + 1) found

namespace Search

variable {taken : String → Bool} {start failed found : Nat}

theorem found_eq (h : Search taken start failed found) : found = start + failed := by
  induction h with
  | stop _ => rfl
  | next _ _ ih => omega

theorem free (h : Search taken start failed found) : taken (generatedName found) = false := by
  induction h with
  | stop h => exact h
  | next _ _ ih => exact ih

/-- The numbers that a search has left behind are taken. -/
theorem taken_of_lt (h : Search taken start failed found) :
    ∀ m, start ≤ m → m < found → taken (generatedName m) = true := by
  induction h with
  | stop _ => exact fun m hle hlt => absurd hlt (Nat.not_lt.mpr hle)
  | @next n _ _ h _ ih =>
    intro m hle hlt
    rcases Nat.eq_or_lt_of_le hle with rfl | hm
    · exact h
    · exact ih m hm hlt

end Search

/-- A search of bounded length is the search, unless all its candidates are taken. -/
theorem search_freeNumber_or_taken (taken : String → Bool) : ∀ fuel start : Nat,
    (∃ failed, Search taken start failed (freeNumber taken fuel start)) ∨
      ∀ i < fuel, taken (generatedName (start + i)) = true
  | 0, start => Or.inr fun i hi => absurd hi (Nat.not_lt_zero i)
  | fuel + 1, start => by
      rw [freeNumber]
      by_cases h : taken (generatedName start) = true
      · rw [if_pos h]
        refine (search_freeNumber_or_taken taken fuel (start + 1)).imp
          (fun ⟨failed, hsearch⟩ => ⟨failed + 1, .next h hsearch⟩) fun htaken i hi => ?_
        cases i with
        | zero => exact h
        | succ i =>
          have := htaken i (Nat.lt_of_succ_lt_succ hi)
          rwa [Nat.add_right_comm] at this
      · rw [if_neg h]
        exact Or.inl ⟨0, .stop (Bool.eq_false_iff.mpr h)⟩

/-- **Candidates that are all taken are no more than the names that take them.** -/
theorem le_length_of_generatedName_mem {names : List String} {start count : Nat}
    (h : ∀ i < count, generatedName (start + i) ∈ names) : count ≤ names.length := by
  let candidates := (List.range count).map fun i => generatedName (start + i)
  have hnodup : candidates.Nodup :=
    List.Nodup.map (fun i j h => Nat.add_left_cancel (generatedName_injective h)) List.nodup_range
  have hsubset : candidates ⊆ names := by
    intro name hname
    obtain ⟨i, hi, rfl⟩ := List.mem_map.mp hname
    exact h i (List.mem_range.mp hi)
  have hlength := (List.subperm_of_subset hnodup hsubset).length_le
  rwa [List.length_map, List.length_range] at hlength

/-- **The search for the next name ends**, after at most as many failures as there are visible
names. -/
theorem exists_search_nextName (s : Scope) : ∃ failed ≤ s.visible.length, ∃ found,
    Search (fun name => (s.lookup name).isSome) (s.visible.length + 1) failed found ∧
      s.nextName = generatedName found := by
  have hlength : s.visible.names.length = s.visible.length := List.length_map ..
  rcases search_freeNumber_or_taken (fun name => (s.lookup name).isSome)
    (s.visible.length + 1) (s.visible.length + 1) with ⟨failed, hsearch⟩ | htaken
  · have hmem : ∀ i < failed, generatedName (s.visible.length + 1 + i) ∈ s.visible.names := by
      intro i hi
      refine isSome_lookup_iff.mp (hsearch.taken_of_lt _ (Nat.le_add_right ..) ?_)
      rw [hsearch.found_eq]
      exact Nat.add_lt_add_left hi _
    exact ⟨failed, hlength ▸ le_length_of_generatedName_mem hmem, _, hsearch, rfl⟩
  · -- one candidate more than there are names
    have hmany := le_length_of_generatedName_mem fun i hi => isSome_lookup_iff.mp (htaken i hi)
    omega

/-- **A generated name is free.** -/
theorem nextName_notMem (s : Scope) : s.nextName ∉ s.visible.names := by
  obtain ⟨_, -, found, hsearch, hname⟩ := exists_search_nextName s
  rw [hname, ← isSome_lookup_iff, Bool.not_eq_true]
  exact hsearch.free

/-- **A scope declares under a name that is not visible.** -/
theorem freshName_notMem (h : s.freshName name? = .ok name) : name ∉ s.visible.names := by
  cases name? with
  | none =>
    obtain rfl := Except.ok.inj h
    exact nextName_notMem s
  | some asked =>
    simp only [freshName] at h
    split at h
    · exact absurd h (by simp)
    · split at h
      · exact absurd h (by simp)
      case isFalse hfree =>
        obtain rfl := Except.ok.inj h
        rwa [isSome_lookup_iff] at hfree

theorem ne_alreadyConfigured_of_freshName {fault : Fault} (h : s.freshName name? = .error fault)
    (path : String) : fault ≠ .factoryAlreadyConfigured path := by
  cases name? with
  | none => exact absurd h (by simp [freshName])
  | some asked =>
    simp only [freshName] at h
    split at h
    · exact Except.error.inj h ▸ Fault.noConfusion
    · split at h
      · exact Except.error.inj h ▸ Fault.noConfusion
      · exact absurd h (by simp)

theorem generatedName_ne_empty (n : Nat) : generatedName n ≠ "" := by
  intro h
  have hchars := congrArg String.toList h
  simp [generatedName, String.toList_append] at hchars

/-- **A name that was asked for is refused** if it is empty or visible, and for no other reason. -/
theorem freshName_some (s : Scope) (asked : String) :
    s.freshName (some asked) =
      if asked = "" then .error .emptyName
      else if asked ∈ s.visible.names then .error (.duplicateDeclaration asked s.path)
      else .ok asked := by
  simp only [freshName, isSome_lookup_iff]

/-- A scope declares under a name that is not empty. -/
theorem freshName_ne_empty (h : s.freshName name? = .ok name) : name ≠ "" := by
  cases name? with
  | none =>
    obtain rfl := Except.ok.inj h
    exact generatedName_ne_empty _
  | some asked =>
    rw [freshName_some] at h
    split at h
    · exact absurd h (by simp)
    case isFalse hne =>
      split at h
      · exact absurd h (by simp)
      · exact Except.ok.inj h ▸ hne

/-- **A declaration adds the binding that it answers**, if it answers one, and nothing else. -/
theorem state_declare (type : DataType) (name? : Option String) (s : Scope) :
    ((declare type name?).run s).state =
      { s with own := s.own ++ ((declare type name?).run s).answer.toOption.toList } := by
  cases h : s.freshName name? with
  | error fault => rw [run_declare_of_error h]; simp [Except.toOption]
  | ok name => rw [run_declare_of_ok h]; rfl

/-! ## Own bindings -/

/-- The own bindings of a scope stand in its path, under names apart from each other and from those
it inherits. -/
structure OwnFresh (s : Scope) : Prop where
  scope_eq : ∀ d ∈ s.own, d.scope = s.path
  nodup : s.own.names.Nodup
  notMem_inherited : ∀ d ∈ s.own, d.name ∉ s.inherited.names

theorem ownFresh_child (s : Scope) (label : String) : (s.child label).OwnFresh :=
  ⟨by simp [child], by simp [child], by simp [child]⟩

theorem OwnFresh.push (h : s.OwnFresh) (hname : s.freshName name? = .ok name) (type : DataType) :
    (s.push ⟨name, type, s.path⟩).OwnFresh := by
  have hfresh := freshName_notMem hname
  rw [visible, Declarations.names_append, List.mem_append, not_or] at hfresh
  refine ⟨fun d hd => ?_, ?_, fun d hd => ?_⟩
  · rcases List.mem_append.mp hd with hd | hd
    · exact h.scope_eq d hd
    · rw [List.mem_singleton.mp hd, path_push]
  · exact Declarations.names_nodup_concat.mpr ⟨hfresh.2, h.nodup⟩
  · rcases List.mem_append.mp hd with hd | hd
    · exact h.notMem_inherited d hd
    · rw [List.mem_singleton.mp hd]
      exact hfresh.1

theorem names_nodup_push (h : s.visible.names.Nodup) (hname : s.freshName name? = .ok name)
    (type : DataType) : (s.push ⟨name, type, s.path⟩).visible.names.Nodup := by
  rw [visible_push]
  exact Declarations.names_nodup_concat.mpr ⟨freshName_notMem hname, h⟩

/-- **Declaring keeps names apart**, whether or not it is refused. -/
theorem names_nodup_declare (h : s.visible.names.Nodup) (type : DataType) (name? : Option String) :
    ((declare type name?).run s).state.visible.names.Nodup := by
  cases hname : s.freshName name? with
  | error fault => rwa [run_declare_of_error hname]
  | ok name =>
    rw [run_declare_of_ok hname]
    exact names_nodup_push h hname type

/-- A scope reached from a root by deriving and declaring, whether or not a declaration was
refused. -/
inductive Grown : Scope → Prop
  | root (label : String) : Grown (root label)
  | child {s : Scope} (label : String) (h : Grown s) : Grown (s.child label)
  | declare {s : Scope} (type : DataType) (name? : Option String) (h : Grown s) :
      Grown ((Scope.declare type name?).run s).state

/-- **The names in a scope that never adopts stay apart.** -/
theorem Grown.names_nodup (h : Grown s) : s.visible.names.Nodup := by
  induction h with
  | root label => simp
  | child label _ ih => simpa using ih
  | declare type name? _ ih => exact names_nodup_declare ih type name?

/-- The own bindings of a scope that never adopts stand in its path. -/
theorem Grown.ownFresh (h : Grown s) : s.OwnFresh := by
  induction h with
  | root label => exact ⟨by simp [Scope.root], by simp [Scope.root], by simp [Scope.root]⟩
  | child label _ _ => exact ownFresh_child _ label
  | @declare s type name? _ ih =>
    cases hname : s.freshName name? with
    | error fault => rwa [run_declare_of_error hname]
    | ok name => rw [run_declare_of_ok hname]; exact ih.push hname type

/-- No name in a scope that never adopts is empty. -/
theorem Grown.empty_notMem_names (h : Grown s) : "" ∉ s.visible.names := by
  induction h with
  | root label => exact List.not_mem_nil
  | child label _ ih => rwa [visible_child]
  | @declare s type name? _ ih =>
    cases hname : s.freshName name? with
    | error fault => rwa [run_declare_of_error hname]
    | ok name =>
      rw [run_declare_of_ok hname]
      refine (visible_push s _).symm ▸ ?_
      rw [Declarations.names_append, List.mem_append, not_or]
      exact ⟨ih, fun h => freshName_ne_empty hname (List.mem_singleton.mp h).symm⟩

/-! ## Adopting

A scope tells bindings apart by their names and scopes. -/

theorem sees_iff : s.sees d ↔ ∃ e ∈ s.visible, e.name = d.name ∧ e.scope = d.scope := by
  simp [sees]

theorem sees_iff_mem_places : s.sees d ↔ d.place ∈ s.visible.places := by
  rw [sees_iff, Declarations.places, List.mem_map]
  simp [Declaration.place]

theorem not_sees_of_notMem (h : d.name ∉ s.visible.names) : s.sees d = false := by
  rw [← Bool.not_eq_true, sees_iff]
  rintro ⟨e, he, hname, -⟩
  exact h (Declarations.mem_names.mpr ⟨e, he, hname⟩)

/-- The bindings that adopting brings in: the first of each place, where it is not seen yet. -/
def newcomers (s : Scope) (ds : Declarations) : Declarations :=
  (firstsBy Declaration.place ds).filter fun d => decide (d.place ∉ s.visible.places)

theorem newcomers_cons (s : Scope) (d : Declaration) (ds : Declarations) :
    s.newcomers (d :: ds) = if s.sees d then s.newcomers ds else d :: (s.push d).newcomers ds := by
  rw [newcomers, firstsBy_cons, List.filter_cons, List.filter_filter]
  by_cases hd : s.sees d = true
  · have hplace : d.place ∈ s.visible.places := sees_iff_mem_places.mp hd
    rw [if_pos hd, if_neg (by simpa using hplace), newcomers]
    refine List.filter_congr fun e _ => ?_
    by_cases he : e.place = d.place
    · simp [he, hplace]
    · simp [he]
  · have hplace : d.place ∉ s.visible.places := mt sees_iff_mem_places.mpr hd
    rw [if_neg hd, if_pos (by simpa using hplace), newcomers]
    -- a binding that has come in is seen by those that follow
    refine congrArg (d :: ·) (List.filter_congr fun e _ => ?_)
    by_cases he : e.place = d.place <;> simp [he, Declarations.places]

/-- **What adopting does**: it brings in the newcomers, in order, and that is all. -/
theorem adopt_eq (s : Scope) (ds : Declarations) :
    s.adopt ds = { s with own := s.own ++ s.newcomers ds } := by
  induction ds generalizing s with
  | nil => simp [newcomers]
  | cons d ds ih =>
    rw [adopt_cons, adoptOne, newcomers_cons]
    split
    · exact ih s
    · refine (ih (s.push d)).trans ?_
      rw [own_push, List.append_assoc]
      rfl

@[simp] theorem path_adopt (s : Scope) (ds : Declarations) : (s.adopt ds).path = s.path := by
  rw [adopt_eq]

@[simp] theorem inherited_adopt (s : Scope) (ds : Declarations) :
    (s.adopt ds).inherited = s.inherited := by
  rw [adopt_eq]

theorem own_prefix_adopt (s : Scope) (ds : Declarations) : s.own <+: (s.adopt ds).own := by
  rw [adopt_eq]
  exact List.prefix_append ..

theorem visible_adopt (s : Scope) (ds : Declarations) :
    (s.adopt ds).visible = s.visible ++ s.newcomers ds := by
  rw [adopt_eq, visible, visible, List.append_assoc]

/-- **Of bindings of distinct places those come in that are not seen yet.** -/
theorem newcomers_of_nodup (s : Scope) (hds : ds.places.Nodup) :
    s.newcomers ds = ds.filter fun d => !s.sees d := by
  rw [newcomers, firstsBy_eq_self hds]
  refine List.filter_congr fun d _ => Bool.eq_iff_iff.mpr ?_
  rw [decide_eq_true_eq, Bool.not_eq_true', ← Bool.not_eq_true, sees_iff_mem_places]

theorem notMem_places_of_mem_newcomers (h : d ∈ s.newcomers ds) : d.place ∉ s.visible.places :=
  of_decide_eq_true (List.mem_filter.mp h).2

theorem newcomers_sublist (s : Scope) (ds : Declarations) : (s.newcomers ds).Sublist ds :=
  List.filter_sublist.trans (firstsBy_sublist Declaration.place ds)

/-- A scope reached from a root by deriving, declaring and adopting. -/
inductive Reached : Scope → Prop
  | root (label : String) : Reached (root label)
  | child {s : Scope} (label : String) (h : Reached s) : Reached (s.child label)
  | declare {s : Scope} (type : DataType) (name? : Option String) (h : Reached s) :
      Reached ((Scope.declare type name?).run s).state
  | adopt {s : Scope} (ds : Declarations) (h : Reached s) : Reached (s.adopt ds)

theorem places_nodup_adopt (ds : Declarations) (h : s.visible.places.Nodup) :
    (s.adopt ds).visible.places.Nodup := by
  rw [visible_adopt, Declarations.places, List.map_append, List.nodup_append]
  refine ⟨h, (nodup_map_firstsBy Declaration.place ds).sublist (List.filter_sublist.map _), ?_⟩
  intro place hplace place' hplace'
  rintro rfl
  obtain ⟨d, hd, rfl⟩ := List.mem_map.mp hplace'
  exact notMem_places_of_mem_newcomers hd hplace

/-- **No two visible bindings share a name and a scope**, whatever was adopted. -/
theorem Reached.places_nodup (h : Reached s) : s.visible.places.Nodup := by
  induction h with
  | root label => exact List.nodup_nil
  | child label _ ih => rwa [visible_child]
  | @declare s type name? _ ih =>
    cases hname : s.freshName name? with
    | error fault => rwa [run_declare_of_error hname]
    | ok name =>
      rw [run_declare_of_ok hname]
      refine (visible_push s _).symm ▸ Declarations.places_nodup_concat.mpr ⟨?_, ih⟩
      exact Declarations.place_notMem_of_name_notMem (freshName_notMem hname)
  | adopt ds _ ih => exact places_nodup_adopt ds ih

end Scope

end AggregateRules
