import AggregateRules.Toml.Parse

/-!
# Proofs/Documents — a document gives no name twice

While a text is read its tables grow in one way only: `alter` changes what stands under a name, or
puts something under a new name at the end.  So names stay apart whatever it is asked to do
(`keeps_alter`), and of dotted keys and headers it is left to say that what they put under a name
has its own names apart.  They go down a path by `alter` at each step, so this is by recursion on
the path.  The contents that are put in come from the readers: those that nest are read by one
reader at a smaller depth, and those that do not have no names (`content_yields`).

**Main statement**: `parse_distinct`.
-/

namespace AggregateRules.Toml

/-- No table of a content gives a name twice. -/
inductive Value.Distinct : Value → Prop
  | string (s : String) : Distinct (.string s)
  | integer (written : String) : Distinct (.integer written)
  | float (written : String) : Distinct (.float written)
  | boolean (b : Bool) : Distinct (.boolean b)
  | dateTime (written : String) : Distinct (.dateTime written)
  | array {items : List Value} : (∀ item ∈ items, Distinct item) → Distinct (.array items)
  | table {entries : List (String × Value)} : (entries.map Prod.fst).Nodup →
      (∀ entry ∈ entries, Distinct entry.2) → Distinct (.table entries)

/-- No table of a document gives a name twice, nor does the document. -/
def Document.Distinct (document : Document) : Prop := (Value.table document).Distinct

theorem distinct_table_iff {entries : List (String × Value)} : (Value.table entries).Distinct ↔
    (entries.map Prod.fst).Nodup ∧ ∀ entry ∈ entries, entry.2.Distinct :=
  ⟨fun | .table hnames h => ⟨hnames, h⟩, fun h => .table h.1 h.2⟩

/-! ## What nodes say -/

/-- What named nodes say gives no name twice. -/
def Layout.Distinct (layout : Layout) : Prop := Document.Distinct (Layout.entries layout)

theorem Layout.entries_eq_map : ∀ layout : Layout,
    Layout.entries layout = layout.map fun entry => (entry.1, entry.2.value)
  | [] => by rw [Layout.entries, List.map_nil]
  | (name, node) :: rest => by rw [Layout.entries, entries_eq_map rest, List.map_cons]

theorem Layout.tableValues_eq_map : ∀ tables : List Layout,
    Layout.tableValues tables = tables.map fun inside => .table (Layout.entries inside)
  | [] => by rw [Layout.tableValues, List.map_nil]
  | inside :: rest => by rw [Layout.tableValues, tableValues_eq_map rest, List.map_cons]

theorem Layout.distinct_nil : Layout.Distinct [] := by
  rw [Layout.Distinct, Layout.entries]
  exact .table List.nodup_nil fun _ h => absurd h List.not_mem_nil

theorem Layout.distinct_cons {name : String} {node : Node} {rest : Layout} :
    Layout.Distinct ((name, node) :: rest) ↔
      name ∉ rest.map Prod.fst ∧ node.value.Distinct ∧ Layout.Distinct rest := by
  simp only [Layout.Distinct, Document.Distinct, distinct_table_iff, Layout.entries_eq_map,
    List.map_map, List.map_cons, List.nodup_cons, List.forall_mem_cons]
  exact ⟨fun ⟨⟨h₁, h₂⟩, h₃, h₄⟩ => ⟨h₁, h₃, h₂, h₄⟩, fun ⟨h₁, h₃, h₂, h₄⟩ => ⟨⟨h₁, h₂⟩, h₃, h₄⟩⟩

theorem Node.distinct_table {origin : Origin} {inside : Layout} :
    (Node.table origin inside).value.Distinct ↔ inside.Distinct := by
  rw [Node.value, Layout.Distinct, Document.Distinct]

theorem Node.distinct_tables {earlier : List Layout} {last : Layout} :
    (Node.tables earlier last).value.Distinct ↔
      (∀ inside ∈ earlier, inside.Distinct) ∧ last.Distinct := by
  rw [Node.value, Layout.tableValues_eq_map]
  constructor
  · rintro (_ | _ | _ | _ | _ | h | _)
    refine ⟨fun inside hin => h _ ?_, h _ (List.mem_append_right _ (List.mem_singleton_self _))⟩
    exact List.mem_append_left _ (List.mem_map_of_mem hin)
  · rintro ⟨hearlier, hlast⟩
    refine .array fun item hitem => ?_
    rcases List.mem_append.mp hitem with hitem | hitem
    · obtain ⟨inside, hin, rfl⟩ := List.mem_map.mp hitem
      exact hearlier inside hin
    · rw [List.mem_singleton.mp hitem]
      exact hlast

/-! ## Changes that keep names apart -/

/-- What a change puts under a name gives no name twice, if what stood there did not. -/
def Node.Keeps (f : Option Node → Option Node) : Prop :=
  ∀ node? node', (∀ node, node? = some node → node.value.Distinct) → f node? = some node' →
    node'.value.Distinct

namespace Layout

/-- A change of named nodes after which no name is given twice, if none was before. -/
def Keeps (f : Layout → Option Layout) : Prop :=
  ∀ layout layout', layout.Distinct → f layout = some layout' → layout'.Distinct

variable {name : String} {f : Option Node → Option Node} {g : Layout → Option Layout}
  {layout layout' inside : Layout} {node : Node}

/-- Only the name that is altered can be new. -/
theorem mem_names_alter : ∀ {layout layout' : Layout}, alter name f layout = some layout' →
    ∀ {n : String}, n ∈ layout'.map Prod.fst → n = name ∨ n ∈ layout.map Prod.fst
  | [], _, h, n, hn => by
      obtain ⟨node, -, rfl⟩ := Option.map_eq_some_iff.mp h
      exact Or.inl (by simpa using hn)
  | (name', node') :: rest, _, h, n, hn => by
      rw [alter] at h
      split at h
      · obtain ⟨node, -, rfl⟩ := Option.map_eq_some_iff.mp h
        exact Or.inr hn
      · obtain ⟨rest', hrest, rfl⟩ := Option.map_eq_some_iff.mp h
        rcases List.mem_cons.mp hn with rfl | hn
        · exact Or.inr List.mem_cons_self
        · exact (mem_names_alter hrest hn).imp id (List.mem_cons_of_mem _)

/-- **To alter what stands under a name keeps names apart.** -/
theorem keeps_alter (hf : Node.Keeps f) : ∀ layout layout' : Layout, layout.Distinct →
    alter name f layout = some layout' → layout'.Distinct
  | [], _, _, h => by
      obtain ⟨node, hnode, rfl⟩ := Option.map_eq_some_iff.mp h
      exact distinct_cons.mpr ⟨List.not_mem_nil, hf none node (by simp) hnode, distinct_nil⟩
  | (name', node') :: rest, _, hdistinct, h => by
      obtain ⟨hname, hnode', hrest⟩ := distinct_cons.mp hdistinct
      rw [alter] at h
      split at h
      case isTrue =>
        obtain ⟨node, hnode, rfl⟩ := Option.map_eq_some_iff.mp h
        refine distinct_cons.mpr ⟨hname, hf _ _ ?_ hnode, hrest⟩
        rintro _ ⟨⟩
        exact hnode'
      case isFalse hne =>
        obtain ⟨rest', hrest', rfl⟩ := Option.map_eq_some_iff.mp h
        refine distinct_cons.mpr ⟨fun hmem => ?_, hnode', keeps_alter hf _ _ hrest hrest'⟩
        rcases mem_names_alter hrest' hmem with heq | hmem
        · exact hne heq
        · exact hname hmem

/-- A table whose inside is changed. -/
theorem Keeps.table (hg : Keeps g) {origin : Origin} (hin : inside.Distinct)
    (h : (g inside).map (.table origin) = some node) : node.value.Distinct := by
  obtain ⟨inside', hinside, rfl⟩ := Option.map_eq_some_iff.mp h
  exact Node.distinct_table.mpr (hg _ _ hin hinside)

/-- An array of tables whose last one is changed. -/
theorem Keeps.tables (hg : Keeps g) {earlier : List Layout} {last : Layout}
    (hin : (Node.tables earlier last).value.Distinct)
    (h : (g last).map (.tables earlier) = some node) : node.value.Distinct := by
  obtain ⟨last', hlast, rfl⟩ := Option.map_eq_some_iff.mp h
  obtain ⟨hearlier, hdistinct⟩ := Node.distinct_tables.mp hin
  exact Node.distinct_tables.mpr ⟨hearlier, hg _ _ hdistinct hlast⟩

theorem keeps_assign {value : Value} (hvalue : value.Distinct) : ∀ (path : List String)
    (name : String), Keeps (assign value path name)
  | [], name => by
      refine keeps_alter fun node? node' _ h => ?_
      cases node? with
      | none => exact Option.some.inj h ▸ (by rwa [Node.value])
      | some _ => exact nomatch h
  | step :: path, name => by
      have ih := keeps_assign hvalue path name
      refine keeps_alter fun node? node' hnode h => ?_
      split at h
      · exact ih.table distinct_nil h
      · exact ih.table (Node.distinct_table.mp (hnode _ rfl)) h
      · exact ih.table (Node.distinct_table.mp (hnode _ rfl)) h
      · split at h
        · exact nomatch h
        · exact ih.tables (hnode _ rfl) h
      · exact nomatch h

theorem keeps_atHeader (hf : Node.Keeps f) : ∀ path : List String, Keeps (atHeader f path)
  | [] => fun _ _ _ h => nomatch h
  | [_] => keeps_alter hf
  | step :: next :: path => by
      have ih := keeps_atHeader hf (next :: path)
      refine keeps_alter fun node? node' hnode h => ?_
      split at h
      · exact ih.table distinct_nil h
      · exact ih.table (Node.distinct_table.mp (hnode _ rfl)) h
      · exact ih.tables (hnode _ rfl) h
      · exact nomatch h

theorem keeps_openTable (path : List String) : Keeps (openTable path) := by
  refine keeps_atHeader (fun node? node' hnode h => ?_) path
  split at h
  · exact Option.some.inj h ▸ Node.distinct_table.mpr distinct_nil
  · exact Option.some.inj h ▸ Node.distinct_table.mpr (Node.distinct_table.mp (hnode _ rfl))
  · exact nomatch h

theorem keeps_openArrayTable (path : List String) : Keeps (openArrayTable path) := by
  refine keeps_atHeader (fun node? node' hnode h => ?_) path
  split at h
  · exact Option.some.inj h ▸ Node.distinct_tables.mpr ⟨nofun, distinct_nil⟩
  · obtain ⟨hearlier, hlast⟩ := Node.distinct_tables.mp (hnode _ rfl)
    refine Option.some.inj h ▸ Node.distinct_tables.mpr ⟨fun inside hin => ?_, distinct_nil⟩
    rcases List.mem_append.mp hin with hin | hin
    · exact hearlier inside hin
    · exact List.mem_singleton.mp hin ▸ hlast
  · exact nomatch h

theorem keeps_inTable (hg : Keeps g) : ∀ path : List String, Keeps (inTable g path)
  | [] => hg
  | step :: path => by
      have ih := keeps_inTable hg path
      refine keeps_alter fun node? node' hnode h => ?_
      split at h
      · exact ih.table (Node.distinct_table.mp (hnode _ rfl)) h
      · exact ih.tables (hnode _ rfl) h
      · exact nomatch h

/-- Changes one after the other. -/
theorem keeps_foldlM {α : Type} {step : Layout → α → Option Layout} : ∀ {as : List α},
    (∀ a ∈ as, Keeps (step · a)) → Keeps fun layout => as.foldlM step layout
  | [], _ => fun _ _ hlayout h => Option.some.inj h ▸ hlayout
  | a :: as, hstep => fun layout layout' hlayout h => by
      obtain ⟨hfirst, hrest⟩ := List.forall_mem_cons.mp hstep
      simp only [List.foldlM_cons, Option.bind_eq_bind, Option.bind_eq_some_iff] at h
      obtain ⟨next, hnext, h⟩ := h
      exact keeps_foldlM hrest next layout' (hfirst layout next hlayout hnext) h

end Layout

/-! ## What readers yield -/

/-- Everything that a reader takes off a text has a property. -/
def Yields {α : Type} (reader : Reader α) (P : α → Prop) : Prop :=
  ∀ s a rest, reader s = some (a, rest) → P a

variable {α : Type} {P : α → Prop}

/-- Items have whatever the reader of one gives them. -/
theorem itemsUntil_yields {close : Char} {item : Reader α} (hitem : Yields item P) :
    Yields (itemsUntil close item) fun items => ∀ a ∈ items, P a := by
  have go : ∀ bound s items rest, itemsUntil.go close item bound s = some (items, rest) →
      ∀ a ∈ items, P a := by
    intro bound
    induction bound with
    | nil => exact fun _ _ _ h => nomatch h
    | cons _ bound ih =>
      intro s items rest h
      simp only [itemsUntil.go] at h
      split at h
      · simp_all
      · simp only [Option.bind_eq_bind, Option.bind_eq_some_iff, Prod.exists] at h
        obtain ⟨a, rest₁, ha, h⟩ := h
        split at h
        · simp only [Option.pure_def, Option.some.injEq, Prod.mk.injEq] at h
          obtain ⟨rfl, -⟩ := h
          exact List.forall_mem_singleton.mpr (hitem _ _ _ ha)
        · simp only [Option.bind_eq_some_iff, Prod.exists, Option.pure_def,
            Option.some.injEq, Prod.mk.injEq] at h
          obtain ⟨_, _, -, as, _, has, rfl, -⟩ := h
          exact List.forall_mem_cons.mpr ⟨hitem _ _ _ ha, ih _ _ _ has⟩
  exact fun s => go s s

/-- An assignment gives what the reader of its content yields. -/
theorem assignment_yields {skip : List Char → List Char} {content : Reader Value}
    {P : Value → Prop} (hcontent : Yields content P) :
    Yields (assignment skip content) fun assigned => P assigned.2.2 := by
  intro s assigned rest h
  simp only [assignment, Option.bind_eq_bind, Option.bind_eq_some_iff, Prod.exists,
    Option.pure_def, Option.some.injEq, Prod.mk.injEq] at h
  obtain ⟨_, _, -, _, _, -, value, _, hvalue, _, -, rfl, -⟩ := h
  exact hcontent _ _ _ hvalue

theorem braced_distinct {assignments : List (List String × String × Value)} {value : Value}
    (hassigned : ∀ assigned ∈ assignments, assigned.2.2.Distinct)
    (h : braced assignments = some value) : value.Distinct := by
  obtain ⟨layout, hlayout, rfl⟩ := Option.map_eq_some_iff.mp h
  exact Layout.keeps_foldlM (fun assigned hmem => Layout.keeps_assign (hassigned assigned hmem) _ _)
    _ _ Layout.distinct_nil hlayout

/-! ## Contents -/

/-- Whether a content has no contents inside. -/
def Value.isFlat : Value → Bool
  | .array _ | .table _ => false
  | _ => true

theorem Value.distinct_of_isFlat : ∀ {value : Value}, value.isFlat → value.Distinct
  | .string s, _ => .string s
  | .integer written, _ => .integer written
  | .float written, _ => .float written
  | .boolean b, _ => .boolean b
  | .dateTime written, _ => .dateTime written

theorem isFlat_decimal? {whole s : List Char} {value : Value}
    (h : decimal? whole s = some value) : value.isFlat := by
  grind [decimal?, Value.isFlat]

theorem isFlat_zeroPrefixed? {whole s : List Char} {value : Value}
    (h : zeroPrefixed? whole s = some value) : value.isFlat := by
  unfold zeroPrefixed? at h
  split at h
  · grind [isFlat_decimal?, Value.isFlat]
  · exact isFlat_decimal? h

theorem isFlat_number? {whole s : List Char} {value : Value}
    (h : number? whole s = some value) : value.isFlat := by
  unfold number? at h
  split at h
  · exact isFlat_zeroPrefixed? h
  · grind [isFlat_decimal?, Value.isFlat]
  · exact nomatch h

theorem isFlat_wordsValue? {s : List Char} {value : Value}
    (h : wordsValue? s = some value) : value.isFlat := by
  grind [wordsValue?, isFlat_number?, Value.isFlat]

theorem flatContent_yields : Yields flatContent (Value.isFlat · = true) := by
  intro s value rest h
  obtain ⟨reader, hreader, h⟩ := List.exists_of_findSome?_eq_some h
  rw [List.mem_cons, List.mem_singleton] at hreader
  rcases hreader with rfl | rfl
  · obtain ⟨_, -, h⟩ := Option.map_eq_some_iff.mp h
    obtain ⟨rfl, -⟩ := Prod.mk.inj h
    rfl
  · obtain ⟨_, hwords, h⟩ := Option.map_eq_some_iff.mp h
    obtain ⟨rfl, -⟩ := Prod.mk.inj h
    exact isFlat_wordsValue? hwords

/-- **A content gives no name twice**, however deep it nests. -/
theorem content_yields : ∀ depth : Nat, Yields (content depth) Value.Distinct
  | 0 => fun _ _ _ h => Value.distinct_of_isFlat (flatContent_yields _ _ _ h)
  | depth + 1 => by
      intro s value rest h
      have ih := content_yields depth
      simp only [content] at h
      split at h
      · obtain ⟨⟨items, _⟩, hitems, h⟩ := Option.map_eq_some_iff.mp h
        obtain ⟨rfl, -⟩ := Prod.mk.inj h
        exact .array (itemsUntil_yields ih _ _ _ hitems)
      · simp only [Option.bind_eq_bind, Option.bind_eq_some_iff, Prod.exists, Option.pure_def,
          Option.some.injEq, Prod.mk.injEq] at h
        obtain ⟨assignments, _, hassigned, table, htable, rfl, -⟩ := h
        exact braced_distinct (itemsUntil_yields (assignment_yields ih) _ _ _ hassigned) htable
      · exact Value.distinct_of_isFlat (flatContent_yields _ _ _ h)

/-! ## Lines -/

namespace Progress

variable {p p' : Progress} {s rest : List Char}

/-- **One header or assignment keeps names apart.** -/
theorem line_distinct (hp : p.layout.Distinct) (h : p.line s = some (p', rest)) :
    p'.layout.Distinct := by
  unfold line at h
  split at h
  · simp only [Option.bind_eq_bind, Option.bind_eq_some_iff, Prod.exists, Option.pure_def,
      Option.some.injEq, Prod.mk.injEq] at h
    obtain ⟨path, _, -, _, _, -, _, _, -, layout, hlayout, rfl, -⟩ := h
    exact Layout.keeps_openArrayTable path _ _ hp hlayout
  · simp only [Option.bind_eq_bind, Option.bind_eq_some_iff, Prod.exists, Option.pure_def,
      Option.some.injEq, Prod.mk.injEq] at h
    obtain ⟨path, _, -, _, _, -, layout, hlayout, rfl, -⟩ := h
    exact Layout.keeps_openTable path _ _ hp hlayout
  · simp only [Option.bind_eq_bind, Option.bind_eq_some_iff, Prod.exists, Option.pure_def,
      Option.some.injEq, Prod.mk.injEq] at h
    obtain ⟨path, name, value, _, hvalue, layout, hlayout, rfl, -⟩ := h
    have hdistinct : value.Distinct := assignment_yields (content_yields _) _ _ _ hvalue
    exact Layout.keeps_inTable (Layout.keeps_assign hdistinct path name) _ _ _ hp hlayout

/-- **Lines keep names apart.** -/
theorem lines_distinct {bound : List Char} (hp : p.layout.Distinct)
    (h : lines bound p s = some p') : p'.layout.Distinct := by
  induction bound generalizing p s with
  | nil =>
    rw [lines] at h
    split at h
    · exact Option.some.inj h ▸ hp
    · contradiction
  | cons _ bound ih =>
    -- the end of a line leads to the lines after it, for which there is one character less
    have finished : ∀ {q : Progress} {s : List Char}, q.layout.Distinct →
        lines.finish bound q s = some p' → p'.layout.Distinct := by
      intro q s hq h
      simp only [lines.finish, Option.bind_eq_bind, Option.bind_eq_some_iff] at h
      obtain ⟨rest, -, h⟩ := h
      split at h
      · exact Option.some.inj h ▸ hq
      · simp only [Option.bind_eq_some_iff, Prod.exists] at h
        obtain ⟨_, _, -, h⟩ := h
        exact ih hq h
    rw [lines] at h
    split at h
    · exact Option.some.inj h ▸ hp
    · split at h
      · exact finished hp h
      · simp only [Option.bind_eq_bind, Option.bind_eq_some_iff, Prod.exists] at h
        obtain ⟨q, _, hq, h⟩ := h
        exact finished (line_distinct hp hq) h

end Progress

/-- **A document gives no name twice.** -/
theorem parse_distinct {text : String} {document : Document} (h : parse text = some document) :
    document.Distinct := by
  obtain ⟨p, hp, rfl⟩ := Option.map_eq_some_iff.mp h
  exact Progress.lines_distinct Layout.distinct_nil hp

end AggregateRules.Toml
