import Mathlib.Order.Bounds.Defs
import AggregateRules.Proofs.Scope.Names

/-!
# Proofs/Scope/Generated — which numbers generated names get

The search for a generated name tries one number after the other, from the one above the count of
visible bindings on, and nothing in it says when to stop (`Search`).  It stops because no two numbers
have one name: every failure uses up a visible name of its own, whoever has declared or adopted it
(`exists_search_nextName`).  So what it stops at is the least free number above the count.

A binding declared under that number takes the number and raises the count.  The next search starts
later, and it cannot stop at or before a number that the first one left behind.

**Main statement** (`generated_numbers`): the search of every scope ends, at that number, and any
number of bindings can be declared one after another without a name, under growing numbers.
-/

namespace AggregateRules.Scope

variable {s : Scope} {n m failed : Nat}

/-- The least number above the count of visible bindings whose generated name is free. -/
def IsNextNumber (s : Scope) (n : Nat) : Prop :=
  IsLeast {n | s.visible.length < n ∧ generatedName n ∉ s.visible.names} n

/-- **A search stops at the least number it may stop at.** -/
theorem Search.isNextNumber
    (h : Search (fun name => (s.lookup name).isSome) (s.visible.length + 1) failed n) :
    s.IsNextNumber n := by
  refine ⟨⟨?_, ?_⟩, fun m ⟨hm, hfree⟩ => ?_⟩
  · rw [h.found_eq]
    exact Nat.le_add_right ..
  · rw [← isSome_lookup_iff, Bool.not_eq_true]
    exact h.free
  · by_contra hlt
    exact hfree (isSome_lookup_iff.mp (h.taken_of_lt m hm (Nat.lt_of_not_le hlt)))

/-- Once a number has been given out, only greater ones are free. -/
theorem IsNextNumber.lt_of_free_push {d : Declaration} (h : s.IsNextNumber n)
    (hd : d.name = generatedName n) (hm : (s.push d).visible.length < m)
    (hfree : generatedName m ∉ (s.push d).visible.names) : n < m := by
  rw [visible_push, List.length_append] at hm
  rw [visible_push, Declarations.names_append, List.mem_append, not_or] at hfree
  have hle : n ≤ m := h.2 ⟨by omega, hfree.1⟩
  refine Nat.lt_of_le_of_ne hle ?_
  rintro rfl
  exact hfree.2 (List.mem_singleton.mpr hd.symm)

/-! ## One unnamed binding after another -/

/-- Declare bindings of the given types, none with a name. -/
def declareUnnamed : List DataType → Attempt Scope Declarations
  | [] => pure []
  | type :: types => do
      let d ← declare type none
      let ds ← declareUnnamed types
      return d :: ds

/-- The bindings of generated names that have the given numbers. -/
def numbered (path : String) (numbers : List Nat) (types : List DataType) : Declarations :=
  List.zipWith (fun n type => ⟨generatedName n, type, path⟩) numbers types

theorem names_numbered {path : String} : ∀ {numbers : List Nat} {types : List DataType},
    numbers.length = types.length →
      (numbered path numbers types).names = numbers.map generatedName
  | [], _, _ => rfl
  | _ :: _, _ :: _, h => congrArg (_ :: ·) (names_numbered (Nat.succ.inj h))

/-- **Declaring without names always succeeds**, under numbers that grow and that were free and above
the count from the start. -/
theorem run_declareUnnamed : ∀ (types : List DataType) (s : Scope), ∃ numbers : List Nat,
    numbers.length = types.length ∧ numbers.Pairwise (· < ·) ∧
      (∀ n ∈ numbers, s.visible.length < n ∧ generatedName n ∉ s.visible.names) ∧
      (declareUnnamed types).run s =
        ⟨.ok (numbered s.path numbers types),
          { s with own := s.own ++ numbered s.path numbers types }, []⟩
  | [], s => ⟨[], rfl, .nil, by simp, by simp [declareUnnamed, numbered]⟩
  | type :: types, s => by
      obtain ⟨_, -, n, hsearch, hname⟩ := exists_search_nextName s
      have hnext := hsearch.isNextNumber
      let d : Declaration := ⟨generatedName n, type, s.path⟩
      have hdeclare : (declare type none).run s = ⟨.ok d, s.push d, []⟩ :=
        run_declare_of_ok (congrArg Except.ok hname)
      obtain ⟨numbers, hlength, hgrow, hfree, hrun⟩ := run_declareUnnamed types (s.push d)
      refine ⟨n :: numbers, congrArg (· + 1) hlength, ?_, ?_, ?_⟩
      · refine List.pairwise_cons.mpr ⟨fun m hm => ?_, hgrow⟩
        exact hnext.lt_of_free_push rfl (hfree m hm).1 (hfree m hm).2
      · refine List.forall_mem_cons.mpr ⟨hnext.1, fun m hm => ?_⟩
        -- what is free in the end was free before
        obtain ⟨hcount, hm⟩ := hfree m hm
        rw [visible_push, List.length_append] at hcount
        rw [visible_push, Declarations.names_append, List.mem_append, not_or] at hm
        exact ⟨by omega, hm.1⟩
      · rw [declareUnnamed, Attempt.run_bind_of_ok hdeclare, Attempt.run_bind_of_ok hrun]
        simp [numbered, d]

/-- **A generated name has the least free number above the count of visible bindings**, whatever
names they have, and the search for it fails at most as often as there are such bindings.  So any
number of bindings can be declared one after another without a name: all of them go through, and
they get distinct names, with numbers that strictly increase. -/
theorem generated_numbers (s : Scope) :
    (∃ failed ≤ s.visible.length, ∃ n,
      Search (fun name => (s.lookup name).isSome) (s.visible.length + 1) failed n ∧
        s.nextName = generatedName n ∧
        IsLeast {n | s.visible.length < n ∧ generatedName n ∉ s.visible.names} n) ∧
      ∀ types : List DataType, ∃ numbers : List Nat,
        (declareUnnamed types).run s =
            ⟨.ok (numbered s.path numbers types),
              { s with own := s.own ++ numbered s.path numbers types }, []⟩ ∧
          numbers.length = types.length ∧ numbers.Pairwise (· < ·) ∧
          (numbered s.path numbers types).names = numbers.map generatedName ∧
          (numbers.map generatedName).Nodup ∧
          ∀ n ∈ numbers, s.visible.length < n ∧ generatedName n ∉ s.visible.names := by
  refine ⟨?_, fun types => ?_⟩
  · obtain ⟨failed, hle, n, hsearch, hname⟩ := exists_search_nextName s
    exact ⟨failed, hle, n, hsearch, hname, hsearch.isNextNumber⟩
  · obtain ⟨numbers, hlength, hgrow, hfree, hrun⟩ := run_declareUnnamed types s
    have hnodup : numbers.Nodup := hgrow.imp Nat.ne_of_lt
    exact ⟨numbers, hrun, hlength, hgrow, names_numbered hlength,
      hnodup.map generatedName_injective, hfree⟩

/-- Two visible bindings, one of which has the name that would come next. -/
example : (⟨"Rule", [⟨"x", .named "T", "Other"⟩], [⟨"$var3$", .named "T", "Rule"⟩]⟩ : Scope).nextName =
    "$var4$" := by cbv

end AggregateRules.Scope
