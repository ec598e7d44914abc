import Mathlib.Data.List.Nodup
import AggregateRules.Proofs.OrderedMap
import AggregateRules.Strategy.Registry

/-!
# Proofs/Notation — a type is read back from its notation

The notation of a type is a head — a name, `List` or `Group` — and the brackets behind it.  If the
names hold none of the marks, the head ends at the first mark, and what stands in the brackets ends at
a mark again: a notation is cut off from whatever text may follow it (`display_append_inj`), so
types with one notation are one type.

**Main statement** (`collections_found_by_name`): the collection types of different element types
have different names, so they can all be registered, and each is found again by its name.
-/

namespace AggregateRules

namespace DataType

/-! ## Heads and brackets -/

/-- The characters that set the parts of a notation apart. -/
def marks : List Char := ['<', '>', ',']

/-- No name in the type holds a mark. -/
def Plain : DataType → Prop
  | group key element => key.Plain ∧ element.Plain
  | list element => element.Plain
  | named name => ∀ c ∈ name.toList, c ∉ marks

/-- Whether no name in the type holds a mark. -/
def decidePlain : (t : DataType) → Decidable t.Plain
  | group key element => @instDecidableAnd _ _ key.decidePlain element.decidePlain
  | list element => element.decidePlain
  | named name => List.decidableBAll (· ∉ marks) name.toList

instance : DecidablePred Plain := decidePlain

/-- What a notation starts with. -/
def head : DataType → String
  | group .. => "Group"
  | list _ => "List"
  | named name => name

/-- What follows the head. -/
def brackets : DataType → List Char
  | group key element =>
      '<' :: (key.display.toList ++ ',' :: ' ' :: (element.display.toList ++ ['>']))
  | list element => '<' :: (element.display.toList ++ ['>'])
  | named _ => []

/-- A text that may follow a notation inside brackets, or at the end. -/
def Closes (r : List Char) : Prop := ∀ c ∈ r.head?, c = '>' ∨ c = ','

variable {s t : DataType} {r r' : List Char}

theorem toList_display (t : DataType) : t.display.toList = t.head.toList ++ t.brackets := by
  cases t <;> simp [display, head, brackets]

theorem brackets_list_append (element : DataType) (r : List Char) :
    (list element).brackets ++ r = '<' :: (element.display.toList ++ '>' :: r) := by
  simp [brackets]

theorem brackets_group_append (key element : DataType) (r : List Char) :
    (group key element).brackets ++ r =
      '<' :: (key.display.toList ++ ',' :: ' ' :: (element.display.toList ++ '>' :: r)) := by
  simp [brackets]

theorem Plain.notMem_marks (ht : t.Plain) : ∀ c ∈ t.head.toList, c ∉ marks := by
  cases t with
  | group key element => simp [head, marks]
  | list element => simp [head, marks]
  | named name => exact ht

theorem Closes.head_brackets (hr : Closes r) : ∀ c ∈ (t.brackets ++ r).head?, c ∈ marks := by
  cases t with
  | group key element => simp [brackets_group_append, marks]
  | list element => simp [brackets_list_append, marks]
  | named name =>
    intro c hc
    rcases hr c hc with rfl | rfl <;> simp [marks]

/-! ## Reading a notation -/

/-- **A text without marks ends at the first mark.** -/
theorem takeWhile_append_of_marked {l : List Char} (hl : ∀ c ∈ l, c ∉ marks)
    (hr : ∀ c ∈ r.head?, c ∈ marks) : (l ++ r).takeWhile (fun c => decide (c ∉ marks)) = l := by
  rw [List.takeWhile_append_of_pos fun c hc => decide_eq_true (hl c hc)]
  cases r with
  | nil => exact List.append_nil l
  | cons c r =>
    have hc : c ∈ marks := hr c rfl
    rw [List.takeWhile_cons_of_neg (by simpa using hc), List.append_nil]

/-- **The head is read off a text that starts with a notation**, and so is what follows it. -/
theorem head_brackets_inj (hs : s.Plain) (ht : t.Plain) (hr : Closes r) (hr' : Closes r')
    (h : s.display.toList ++ r = t.display.toList ++ r') :
    s.head = t.head ∧ s.brackets ++ r = t.brackets ++ r' := by
  rw [toList_display, toList_display, List.append_assoc, List.append_assoc] at h
  have hhead : s.head.toList = t.head.toList := by
    rw [← takeWhile_append_of_marked hs.notMem_marks (hr.head_brackets (t := s)), h,
      takeWhile_append_of_marked ht.notMem_marks (hr'.head_brackets (t := t))]
  exact ⟨String.toList_injective hhead, List.append_cancel_left (hhead ▸ h)⟩

/-- Only a name has nothing behind its head. -/
theorem Closes.exists_named (hr : Closes r) (h : t.brackets ++ r' = r) : ∃ name, t = named name := by
  cases t with
  | named name => exact ⟨name, rfl⟩
  | list | group => subst h; simp [Closes, brackets] at hr

theorem closes_bracket : Closes ('>' :: r) := by simp [Closes]

theorem closes_comma : Closes (',' :: r) := by simp [Closes]

/-- **A notation is cut off from what follows it**: one text is one type with one text behind it. -/
theorem display_append_inj (hs : s.Plain) (ht : t.Plain) (hr : Closes r) (hr' : Closes r')
    (h : s.display.toList ++ r = t.display.toList ++ r') : s = t ∧ r = r' := by
  induction s generalizing t r r' with
  | named name =>
    obtain ⟨hhead, hrest⟩ := head_brackets_inj hs ht hr hr' h
    obtain ⟨name', rfl⟩ := hr.exists_named hrest.symm
    exact ⟨congrArg named hhead, hrest⟩
  | list element ih =>
    obtain ⟨hhead, hrest⟩ := head_brackets_inj hs ht hr hr' h
    cases t with
    | named => exact nomatch hr'.exists_named hrest
    | group => simp [head] at hhead
    | list element' =>
      simp only [brackets_list_append, List.cons.injEq, true_and] at hrest
      obtain ⟨rfl, htail⟩ := ih (t := element') hs ht closes_bracket closes_bracket hrest
      exact ⟨rfl, List.tail_eq_of_cons_eq htail⟩
  | group key element ihk ihe =>
    obtain ⟨hhead, hrest⟩ := head_brackets_inj hs ht hr hr' h
    cases t with
    | named => exact nomatch hr'.exists_named hrest
    | list => simp [head] at hhead
    | group key' element' =>
      simp only [brackets_group_append, List.cons.injEq, true_and] at hrest
      -- The key ends at the comma, and the element, behind a blank, at the bracket.
      obtain ⟨rfl, hblank⟩ := ihk hs.1 ht.1 closes_comma closes_comma hrest
      simp only [List.cons.injEq, true_and] at hblank
      obtain ⟨rfl, htail⟩ := ihe (t := element') hs.2 ht.2 closes_bracket closes_bracket hblank
      exact ⟨rfl, List.tail_eq_of_cons_eq htail⟩

/-- **Types with one notation are one type**, if their names hold no marks. -/
theorem display_inj (hs : s.Plain) (ht : t.Plain) : s.display = t.display ↔ s = t := by
  refine ⟨fun h => ?_, congrArg display⟩
  have hclosed : Closes [] := by simp [Closes]
  exact (display_append_inj hs ht hclosed hclosed (by rw [h])).1

/-- With marks in the names, different types have one notation. -/
example : (group (named "a") (named "b, c")).display = (group (named "a, b") (named "c")).display ∧
    (named "List<a>").display = (list (named "a")).display := by decide

end DataType

/-! ## Registration -/

namespace Registry

variable {r : Registry} {d : Descriptor}

/-- **A descriptor under a new name is registered.** -/
theorem run_register_of_notMem (h : d.name ∉ r.types.keys) :
    (register d).run r = ⟨.ok (), { r with types := r.types.insert d.name d }, []⟩ := by
  have hnew : ¬ r.types.contains d.name := by rwa [OrderedMap.contains_iff]
  rw [register, Attempt.run_bind_of_ok (Attempt.run_state r), if_neg hnew]
  rfl

/-- **Descriptors under different new names are all registered**, in whatever order they come. -/
theorem run_forM_register : ∀ (ds : List Descriptor) (r : Registry),
    (ds.map Descriptor.name).Nodup → (∀ d ∈ ds, d.name ∉ r.types.keys) →
    ∃ r', (ds.forM register).run r = ⟨.ok (), r', []⟩ ∧
      r'.types.entries = r.types.entries ++ ds.map fun d => (d.name, d)
  | [], r, _, _ => ⟨r, rfl, by simp⟩
  | d :: ds, r, hnodup, hnew => by
      obtain ⟨hd, hnodup⟩ := List.nodup_cons.mp hnodup
      have hreg := run_register_of_notMem (hnew d List.mem_cons_self)
      have hnew' : ∀ d' ∈ ds, d'.name ∉ (r.types.insert d.name d).keys := fun d' hd' hmem => by
        rcases OrderedMap.mem_keys_insert.mp hmem with heq | hmem
        · exact hd (List.mem_map.mpr ⟨d', hd', heq⟩)
        · exact hnew d' (List.mem_cons_of_mem d hd') hmem
      obtain ⟨r', hrun, hentries⟩ := run_forM_register ds ⟨r.types.insert d.name d⟩ hnodup hnew'
      refine ⟨r', ?_, ?_⟩
      · rw [List.forM, Attempt.run_bind_of_ok hreg, hrun]
        rfl
      · rw [hentries, OrderedMap.entries_insert_of_notMem d (hnew d List.mem_cons_self),
          List.append_assoc, List.map_cons, List.singleton_append]

/-- A descriptor is found exactly under the name that it is entered with. -/
theorem find_eq_ok_iff {name : String} :
    r.find name = .ok d ↔ (name, d) ∈ r.types.entries := by
  rw [← OrderedMap.get?_eq_some_iff, find]
  split <;> simp_all

end Registry

namespace Descriptor

/-- **Collection types are named apart**, if the names in their element types hold no marks. -/
theorem collection_name_inj {s t : DataType} (hs : s.Plain) (ht : t.Plain)
    (h : (collection s).name = (collection t).name) : s = t := by
  have hdisplay : s.display = t.display :=
    (String.append_right_inj _).mp ((String.append_left_inj ">").mp h)
  exact (DataType.display_inj hs ht).mp hdisplay

end Descriptor

/-- **An element type is read back from the name of its collection type.**  If no name of a fact
type holds a mark of the notation, types with one notation are one type.  So the collection types of
different element types have different names: in whatever order they are registered, every one of
them is accepted, and each is then found under its name, with the constructor of a collection of its
own element type. -/
theorem collections_found_by_name :
    (∀ s t : DataType, s.Plain → t.Plain → s.display = t.display → s = t) ∧
    ∀ ts : List DataType, (∀ t ∈ ts, t.Plain) → ts.Nodup →
      (ts.map fun t => (Descriptor.collection t).name).Nodup ∧
      ∃ r : Registry, ((ts.map Descriptor.collection).forM Registry.register).run {} =
          ⟨.ok (), r, []⟩ ∧
        r.size = ts.length ∧
        ∀ t ∈ ts, r.find (Descriptor.collection t).name = .ok (Descriptor.collection t) ∧
          (Descriptor.collection t).constructor?.map Blueprint.build =
            some (.collection { element := t }) := by
  refine ⟨fun s t hs ht => (DataType.display_inj hs ht).mp, fun ts hplain hnodup => ?_⟩
  have hnames : (ts.map fun t => (Descriptor.collection t).name).Nodup :=
    hnodup.map_on fun s hs t ht => Descriptor.collection_name_inj (hplain s hs) (hplain t ht)
  obtain ⟨r, hrun, hentries⟩ := Registry.run_forM_register (ts.map .collection) {}
    (by rwa [List.map_map]) fun d _ hmem => nomatch hmem
  refine ⟨hnames, r, hrun, ?_, fun t ht => ⟨?_, rfl⟩⟩
  · rw [Registry.size, OrderedMap.size, hentries, List.length_append, List.length_map,
      List.length_map]
    exact Nat.zero_add _
  · rw [Registry.find_eq_ok_iff, hentries]
    exact List.mem_append_right _ (List.mem_map.mpr ⟨_, List.mem_map_of_mem ht, rfl⟩)

/-- Names that look like parts of the notation, with blanks or without a letter, are no trouble. -/
theorem collections_found_of_odd_names :
    let ts : List DataType :=
      [.named "List", .list (.named "List"), .group (.named "") (.named "a b"), .named "",
        .group (.list (.named "Group")) (.group (.named "") (.list (.named "")))]
    (∀ t ∈ ts, t.Plain) ∧ ts.Nodup ∧
      ∃ r : Registry, ((ts.map Descriptor.collection).forM Registry.register).run {} =
          ⟨.ok (), r, []⟩ ∧
        r.find "CollectionAggregator<Group<, a b>>" =
          .ok (.collection (.group (.named "") (.named "a b"))) := by
  intro ts
  have hplain : ∀ t ∈ ts, t.Plain := by decide
  have hnodup : ts.Nodup := by decide
  obtain ⟨-, r, hrun, -, hfind⟩ := collections_found_by_name.2 ts hplain hnodup
  exact ⟨hplain, hnodup, r, hrun, (hfind (.group (.named "") (.named "a b")) (by decide)).1⟩

end AggregateRules
