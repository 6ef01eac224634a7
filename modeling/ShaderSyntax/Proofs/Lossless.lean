import ShaderSyntax.Proofs.Rows
import ShaderSyntax.Tree.Yaml

/-!
# Document values are lossless

The document value of a tree gives the tree back, with its kinds, its spans and its texts. A reader
takes what every tree says of itself by its key, and each other key for a label: an item of a list is
one field, as is what is no list. That is right because the fields of a tree are rows, so that each
label is one key, and no label is named as what every tree says of itself.
-/
namespace ShaderSyntax

/-- The kind with the given name. -/
def Kind.ofName? (name : Text) : Option Kind :=
  all.find? fun k => k.name = name

/-- The label with the given name. -/
def Label.ofName? (name : Text) : Option Label :=
  all.find? fun l => l.name = name

/-- Where no two have one name, a name finds what is named so. -/
theorem find?_name {α : Type} {name : α → Text} {all : List α}
    (hinj : ∀ a b, name a = name b → a = b) {a : α} (ha : a ∈ all) :
    all.find? (fun b => name b = name a) = some a := by
  have hsome : (all.find? fun b => decide (name b = name a)).isSome = true := by
    rw [List.find?_isSome]
    exact ⟨a, ha, by simp⟩
  obtain ⟨b, hb⟩ := Option.isSome_iff_exists.mp hsome
  have hname : name b = name a := by simpa using List.find?_some hb
  rw [hb, hinj b a hname]

theorem Kind.ofName?_name (k : Kind) : ofName? k.name = some k :=
  find?_name (fun _ _ => name_inj) (mem_all k)

theorem Label.ofName?_name (l : Label) : ofName? l.name = some l :=
  find?_name (fun _ _ => name_inj) (mem_all l)

namespace Yaml

def text? : Yaml → Option Text
  | .text t => some t
  | _ => none

def span? : Yaml → Option (Span Nat)
  | .span s => some s
  | _ => none

/-- The keys that stand for no field. -/
def reserved : List Text :=
  [Text.ofString "kind", Text.ofString "span", Text.ofString "text", Text.ofString "message"]

/-- The tree that a mapping tells of, given its fields. -/
def assemble (entries : List (Text × Yaml)) (fields : List Field) : Option Tree := do
  let kind ← ((entries.lookup (Text.ofString "kind")).bind text?).bind Kind.ofName?
  let span ← (entries.lookup (Text.ofString "span")).bind span?
  match (entries.lookup (Text.ofString "text")).bind text? with
  | some t => some (.leaf kind span t)
  | none =>
    if kind = .error then
      some (.error span (((entries.lookup (Text.ofString "message")).bind text?).getD []))
    else some (.branch kind span fields)

mutual

/-- The tree that a value stands for. -/
def tree? : Yaml → Option Tree
  | .map entries => (fields? entries).bind (assemble entries)
  | _ => none

def trees? : List Yaml → Option (List Tree)
  | [] => some []
  | v :: rest => do
    let t ← tree? v
    let ts ← trees? rest
    some (t :: ts)

/-- The fields that a value stands for under its label. -/
def under? (label : Label) : Yaml → Option (List Field)
  | .text t => some [.attribute label t]
  | .span _ => none
  | .list vs => (trees? vs).map fun ts => ts.map (.child label)
  | .map entries => ((fields? entries).bind (assemble entries)).map fun t => [.child label t]

/-- The fields that entries stand for, in their order. -/
def fields? : List (Text × Yaml) → Option (List Field)
  | [] => some []
  | (key, v) :: rest =>
    if reserved.contains key then fields? rest
    else do
      let label ← Label.ofName? key
      let first ← under? label v
      let others ← fields? rest
      some (first ++ others)

end

/-- The declarations that a whole document stands for. -/
def file? : Yaml → Option (List Tree)
  | .map entries =>
    match entries.lookup (Text.ofString "declarations") with
    | some (.list vs) => trees? vs
    | _ => none
  | _ => none

end Yaml

theorem Label.name_not_mem_reserved (l : Label) : l.name ∉ Yaml.reserved := by
  have hall : ∀ l ∈ all, l.name ∉ Yaml.reserved := by decide +kernel
  exact hall l (mem_all l)

/-- A tree is a mapping. -/
theorem Tree.toYaml_eq_map (t : Tree) : ∃ entries, t.toYaml = .map entries := by
  cases t <;> exact ⟨_, rfl⟩

namespace Row

open Yaml

def parts : Row → List Yaml.Part
  | .attribute l t => [.attribute l t]
  | .trees l t ts => (t :: ts).map fun t => .child l t.toYaml

/-- The entry that a row becomes. -/
def entry : Row → Text × Yaml
  | .attribute l t => (l.name, .text t)
  | .trees l t [] => (l.name, t.toYaml)
  | .trees l t (u :: us) => (l.name, .list ((t :: u :: us).map Tree.toYaml))

@[simp] theorem fst_entry (r : Row) : r.entry.1 = r.label.name := by
  match r with
  | .attribute l t => rfl
  | .trees l t [] => rfl
  | .trees l t (u :: us) => rfl

theorem toParts_append (fs gs : List Field) :
    Field.toParts (fs ++ gs) = Field.toParts fs ++ Field.toParts gs := by
  induction fs with
  | nil => rfl
  | cons f fs ih => cases f <;> simp [Field.toParts, ih]

theorem toParts_fields (r : Row) : Field.toParts r.fields = r.parts := by
  have htrees : ∀ (l : Label) (ts : List Tree), Field.toParts (ts.map (.child l)) =
      ts.map fun t => .child l t.toYaml := by
    intro l ts
    induction ts with
    | nil => rfl
    | cons t ts ih => simp [Field.toParts, ih]
  cases r with
  | «attribute» l t => rfl
  | trees l t ts => exact htrees l (t :: ts)

theorem toParts_rows (rows : List Row) :
    Field.toParts (rows.flatMap fields) = rows.flatMap parts := by
  induction rows with
  | nil => rfl
  | cons r rows ih =>
    rw [List.flatMap_cons, List.flatMap_cons, toParts_append, toParts_fields, ih]

theorem label_of_mem_parts {r : Row} {p : Yaml.Part} (h : p ∈ r.parts) : p.label = r.label := by
  cases r with
  | «attribute» l t =>
    rw [List.mem_singleton.mp h]
    rfl
  | trees l t ts =>
    obtain ⟨u, -, rfl⟩ := List.mem_map.mp h
    rfl

/-- The parts under the label of a row are those of the row. -/
theorem filter_label {rows : List Row} {r : Row} (hn : (rows.map label).Nodup) (hr : r ∈ rows) :
    (rows.flatMap parts).filter (fun p => p.label = r.label) = r.parts := by
  have hother : ∀ s : Row, s.label ≠ r.label → s.parts.filter (fun p => p.label = r.label) = [] := by
    intro s hs
    rw [List.filter_eq_nil_iff]
    intro p hp
    simpa [label_of_mem_parts hp] using hs
  induction rows with
  | nil => cases hr
  | cons s rows ih =>
    obtain ⟨hs, hn⟩ := List.nodup_cons.mp hn
    rw [List.flatMap_cons, List.filter_append]
    rcases List.mem_cons.mp hr with rfl | hr
    · have hself : r.parts.filter (fun p => p.label = r.label) = r.parts := by
        rw [List.filter_eq_self]
        intro p hp
        simpa using label_of_mem_parts hp
      have hrest : (rows.flatMap parts).filter (fun p => p.label = r.label) = [] := by
        rw [List.filter_flatMap, List.flatMap_eq_nil_iff]
        exact fun s' hs' => hother s' fun he => hs (he ▸ List.mem_map_of_mem hs')
      rw [hself, hrest, List.append_nil]
    · rw [hother s fun he => hs (he ▸ List.mem_map_of_mem hr), ih hn hr, List.nil_append]

theorem filterMap_value? (l : Label) (all : List Yaml.Part) :
    all.filterMap (Yaml.Part.value? l) =
      (all.filter fun p => p.label = l).filterMap (Yaml.Part.value? l) := by
  rw [List.filterMap_filter]
  congr 1
  funext p
  cases p with
  | «attribute» m t => simp [Yaml.Part.value?]
  | child m v => by_cases hm : m = l <;> simp [Yaml.Part.label, Yaml.Part.value?, hm]

/-- Children whose label is listed already give no entry. -/
theorem entriesOf_listed {all : List Yaml.Part} {listed : List Label} {l : Label}
    (hc : all.countP (fun p => p.label = l) ≠ 1) (hl : l ∈ listed) (ts : List Tree)
    (rest : List Yaml.Part) :
    Yaml.Part.entriesOf all listed (ts.map (fun t => Yaml.Part.child l t.toYaml) ++ rest) =
      Yaml.Part.entriesOf all listed rest := by
  induction ts with
  | nil => rfl
  | cons t ts ih => simpa [Yaml.Part.entriesOf, hc, hl] using ih

theorem entriesOf_rows {all : List Yaml.Part} (rows : List Row) (listed : List Label)
    (hall : ∀ r ∈ rows, (all.filter fun p => p.label = r.label) = r.parts)
    (hn : (rows.map label).Nodup) (hl : ∀ r ∈ rows, r.label ∉ listed) :
    Yaml.Part.entriesOf all listed (rows.flatMap parts) = rows.map entry := by
  induction rows generalizing listed with
  | nil => rfl
  | cons r rows ih =>
    obtain ⟨hnew, hothers⟩ := List.nodup_cons.mp hn
    obtain ⟨hparts, hrows⟩ := List.forall_mem_cons.mp hall
    obtain ⟨hfresh, hunlisted⟩ := List.forall_mem_cons.mp hl
    rw [List.flatMap_cons, List.map_cons]
    match r with
    | .attribute l t =>
      rw [← ih listed hrows hothers hunlisted]
      rfl
    | .trees l t [] =>
      have hfilter : (all.filter fun p => p.label = l) = [.child l t.toYaml] := hparts
      have hcount : all.countP (fun p => p.label = l) = 1 := by
        rw [List.countP_eq_length_filter, hfilter]
        rfl
      rw [← ih listed hrows hothers hunlisted]
      simp [parts, Yaml.Part.entriesOf, hcount, entry]
    | .trees l t (u :: us) =>
      have hfilter : (all.filter fun p => p.label = l) =
          (t :: u :: us).map fun t => .child l t.toYaml := hparts
      have hcount : all.countP (fun p => p.label = l) ≠ 1 := by
        simp [List.countP_eq_length_filter, hfilter]
      have hvalues : all.filterMap (Yaml.Part.value? l) = (t :: u :: us).map Tree.toYaml := by
        rw [filterMap_value?, hfilter, List.filterMap_map]
        simp [Yaml.Part.value?, Function.comp_def]
      have hskip : Yaml.Part.entriesOf all (l :: listed)
          ((u :: us).map (fun t => Yaml.Part.child l t.toYaml) ++ rows.flatMap parts) =
          Yaml.Part.entriesOf all (l :: listed) (rows.flatMap parts) :=
        entriesOf_listed hcount (by simp) (u :: us) _
      have hrest := ih (l :: listed) hrows hothers fun s hs hmem => by
        rcases List.mem_cons.mp hmem with he | hmem
        · exact hnew (List.mem_map.mpr ⟨s, hs, he⟩)
        · exact hunlisted s hs hmem
      have hnot : l ∉ listed := hfresh
      rw [parts, List.map_cons, List.cons_append, Yaml.Part.entriesOf, if_neg hcount, if_neg hnot,
        hskip, hrest, hvalues]
      rfl

/-- Rows under different labels become one entry each. -/
theorem entries_rows {rows : List Row} (hn : (rows.map label).Nodup) :
    Yaml.Part.entries (Field.toParts (rows.flatMap fields)) = rows.map entry := by
  rw [toParts_rows, Yaml.Part.entries]
  exact entriesOf_rows rows [] (fun r hr => filter_label hn hr) hn fun r _ => List.not_mem_nil

end Row

namespace Yaml

/-- The value is the tree's, and gives the tree back. -/
theorem trees?_map {ts : List Tree} (h : ∀ t ∈ ts, t.toYaml.tree? = some t) :
    trees? (ts.map Tree.toYaml) = some ts := by
  induction ts with
  | nil => rfl
  | cons t ts ih =>
    obtain ⟨ht, hts⟩ := List.forall_mem_cons.mp h
    simp [trees?, ht, ih hts]

theorem under?_toYaml (label : Label) {t : Tree} (h : t.toYaml.tree? = some t) :
    under? label t.toYaml = some [.child label t] := by
  obtain ⟨entries, he⟩ := t.toYaml_eq_map
  rw [he, tree?] at h
  rw [he, under?, h]
  rfl

theorem under?_entry {r : Row}
    (h : ∀ t, Field.child r.label t ∈ r.fields → t.toYaml.tree? = some t) :
    under? r.label r.entry.2 = some r.fields := by
  match r with
  | .attribute l t => rfl
  | .trees l t [] => exact under?_toYaml l (h t (by simp [Row.label, Row.fields]))
  | .trees l t (u :: us) =>
    have hts : trees? ((t :: u :: us).map Tree.toYaml) = some (t :: u :: us) :=
      trees?_map fun t' ht' => h t' (List.mem_map_of_mem ht')
    rw [Row.entry, under?, hts]
    rfl

/-- Reading the entries of rows gives their fields back. -/
theorem fields?_rows {rows : List Row}
    (h : ∀ l t, Field.child l t ∈ rows.flatMap Row.fields → t.toYaml.tree? = some t) :
    fields? (rows.map Row.entry) = some (rows.flatMap Row.fields) := by
  induction rows with
  | nil => rfl
  | cons r rows ih =>
    rw [List.flatMap_cons] at h ⊢
    have hfirst : under? r.label r.entry.2 = some r.fields :=
      under?_entry fun t ht => h _ t (List.mem_append_left _ ht)
    have hothers := ih fun l t ht => h l t (List.mem_append_right _ ht)
    have hkey : r.entry = (r.label.name, r.entry.2) := by rw [← r.fst_entry]
    have hname : ¬reserved.contains r.label.name = true := by
      simpa using r.label.name_not_mem_reserved
    rw [List.map_cons, hkey, fields?, if_neg hname, Label.ofName?_name, hothers]
    simp [hfirst]

theorem map_fst_head (k : Kind) (s : Span Nat) :
    (head k s).map Prod.fst = [Text.ofString "kind", Text.ofString "span"] := rfl

theorem fields?_head (k : Kind) (s : Span Nat) (rest : List (Text × Yaml)) :
    fields? (head k s ++ rest) = fields? rest := by
  have hkind : Text.ofString "kind" ∈ reserved := by decide
  have hspan : Text.ofString "span" ∈ reserved := by decide
  simp [head, fields?, hkind, hspan]

theorem assemble_head (k : Kind) (s : Span Nat) (rest : List (Text × Yaml)) (fields : List Field) :
    assemble (head k s ++ rest) fields =
      match (rest.lookup (Text.ofString "text")).bind text? with
      | some t => some (.leaf k s t)
      | none =>
        if k = .error then
          some (.error s (((rest.lookup (Text.ofString "message")).bind text?).getD []))
        else some (.branch k s fields) := by
  have hspan : (Text.ofString "span" == Text.ofString "kind") = false := by decide
  have htext : (Text.ofString "text" == Text.ofString "kind") = false := by decide
  have htext' : (Text.ofString "text" == Text.ofString "span") = false := by decide
  have hmessage : (Text.ofString "message" == Text.ofString "kind") = false := by decide
  have hmessage' : (Text.ofString "message" == Text.ofString "span") = false := by decide
  simp [assemble, head, List.lookup_cons, text?, span?, Kind.ofName?_name, hspan, htext, htext',
    hmessage, hmessage']

/-- No row is under a reserved key. -/
theorem lookup_rows {key : Text} (hk : key ∈ reserved) (rows : List Row) :
    (rows.map Row.entry).lookup key = none := by
  rw [List.lookup_eq_none_iff]
  intro p hp
  obtain ⟨r, -, rfl⟩ := List.mem_map.mp hp
  have hne : key ≠ r.label.name := fun he => r.label.name_not_mem_reserved (he ▸ hk)
  simpa using hne

end Yaml

/-- The keys of a tree differ, and reading its value gives the tree back. -/
structure Tree.Lossless (t : Tree) : Prop where
  distinct : ∃ entries, t.toYaml = .map entries ∧ (entries.map Prod.fst).Nodup
  decoded : t.toYaml.tree? = some t

namespace Tree

open Yaml

theorem lossless_leaf (k : Kind) (s : Span Nat) (x : Text) : (leaf k s x).Lossless := by
  have htext : Text.ofString "text" ∈ reserved := by decide
  constructor
  · refine ⟨_, rfl, ?_⟩
    change [Text.ofString "kind", Text.ofString "span", Text.ofString "text"].Nodup
    decide
  · rw [toYaml, tree?, fields?_head]
    simp [fields?, htext, assemble_head, text?]

theorem lossless_error (s : Span Nat) (m : Text) : (error s m).Lossless := by
  have hmessage : Text.ofString "message" ∈ reserved := by decide
  have htext : (Text.ofString "text" == Text.ofString "message") = false := by decide
  constructor
  · refine ⟨_, rfl, ?_⟩
    cases m with
    | nil =>
      change [Text.ofString "kind", Text.ofString "span"].Nodup
      decide
    | cons b m =>
      change [Text.ofString "kind", Text.ofString "span", Text.ofString "message"].Nodup
      decide
  · rw [toYaml, tree?, fields?_head, messageEntries]
    cases m with
    | nil =>
      change assemble (head .error s ++ []) [] = _
      rw [assemble_head]
      rfl
    | cons b m => simp [fields?, hmessage, assemble_head, List.lookup_cons, htext, text?]

theorem lossless_branch {k : Kind} (hk : k ≠ .error) (s : Span Nat) {rows : List Row}
    (hn : (rows.map Row.label).Nodup)
    (h : ∀ l t, Field.child l t ∈ rows.flatMap Row.fields → t.Lossless) :
    (branch k s (rows.flatMap Row.fields)).Lossless := by
  have hentries : (branch k s (rows.flatMap Row.fields)).toYaml =
      .map (head k s ++ rows.map Row.entry) := by
    rw [toYaml, Row.entries_rows hn]
  constructor
  · refine ⟨_, hentries, ?_⟩
    have hkeys : (rows.map Row.entry).map Prod.fst = (rows.map Row.label).map Label.name := by
      simp [Function.comp_def]
    rw [List.map_append, map_fst_head, hkeys, List.nodup_append]
    refine ⟨by decide, hn.map fun _ _ => Label.name_inj, ?_⟩
    intro key hkey name hname he
    obtain ⟨l, -, rfl⟩ := List.mem_map.mp hname
    have hreserved : ∀ key ∈ [Text.ofString "kind", Text.ofString "span"], key ∈ reserved := by
      decide
    exact l.name_not_mem_reserved (he ▸ hreserved key hkey)
  · rw [hentries, tree?, fields?_head, fields?_rows fun l t ht => (h l t ht).decoded,
      Option.bind_some, assemble_head, lookup_rows (by decide), Option.bind_none]
    exact if_neg hk

end Tree

section Placing

variable (locate : Nat → Nat → Span Nat)

mutual

theorem Node.lossless_place : ∀ (n : Node) (start : Nat), n.InRows → (n.place locate start).Lossless
  | .leaf k l, start, _ => Tree.lossless_leaf _ _ _
  | .error s, start, _ => Tree.lossless_error _ _
  | .branch k items, start, ⟨⟨hk, labels, hl, hr⟩, h⟩ => by
    obtain ⟨rows, hlabels, hrows⟩ := hr locate start
    have hchildren := Item.lossless_place items start h
    rw [Node.place, hrows]
    rw [hrows] at hchildren
    exact Tree.lossless_branch hk _ (hl.sublist hlabels) hchildren

theorem Item.lossless_place : ∀ (items : List Item) (start : Nat), Item.InRows items →
    ∀ l t, Field.child l t ∈ Item.place locate start items → t.Lossless
  | [], start, _, l, t, ht => absurd ht List.not_mem_nil
  | .token _ :: rest, start, h, l, t, ht => Item.lossless_place rest (start + 1) h l t ht
  | .attribute _ _ :: rest, start, h, l, t, ht => by
    refine Item.lossless_place rest (start + 1) h l t ?_
    simpa [Item.place] using ht
  | .child label n :: rest, start, h, l, t, ht => by
    rcases List.mem_cons.mp ht with he | ht
    · cases he
      exact Node.lossless_place n start h.1
    · exact Item.lossless_place rest (start + n.size) h.2 l t ht

end

end Placing

theorem Node.inherits_inRows : Inherits Node.InRows fun _ => Item.InRows := by
  constructor
  · exact fun _ _ h => h.2
  · exact fun _ _ _ h => h
  · exact fun _ _ _ _ h => h
  · exact fun _ _ _ _ h => h

/-- The declarations are read back from the value of a file. -/
theorem Tree.file?_fileToYaml {trees : List Tree} (h : ∀ t ∈ trees, t.Lossless) :
    (fileToYaml trees).file? = some trees := by
  have hkey : (Text.ofString "declarations" == Text.ofString "kind") = false := by decide
  simp only [fileToYaml, Yaml.file?, List.lookup_cons, hkey, beq_self_eq_true]
  exact Yaml.trees?_map fun t ht => (h t ht).decoded

theorem Document.lossless_trees {levels : Nat} {text : Text} {d : Document}
    (h : Document.parse levels text = .ok d) :
    (∀ t ∈ d.trees, t.Lossless) ∧
      ∀ v ∈ Tree.walk (fun _ => true) d.trees, v.tree.Lossless := by
  constructor
  · intro t ht
    rw [(Document.trees_placed h).1] at ht
    obtain ⟨n, hn, start, rfl⟩ := Node.exists_of_mem_placeAll ht
    obtain ⟨decl, -, rfl⟩ := List.mem_map.mp hn
    exact Node.lossless_place _ _ start decl.inRows_node
  · intro v hv
    obtain ⟨n, hn, start, run, -, -, ht⟩ := Document.walk_placed h v hv
    obtain ⟨root, hroot, hsub⟩ := List.mem_flatMap.mp hn
    obtain ⟨decl, -, rfl⟩ := List.mem_map.mp hroot
    rw [ht]
    exact Node.lossless_place _ _ start (Node.inherits_inRows.subnodes _ decl.inRows_node n hsub)

/-- Whatever the text and the limit, every tree that a walk through a document meets is read back from
its value, whose keys differ. So the value of a file tells its declarations, with all their spans. -/
theorem yaml_lossless {levels : Nat} {text : Text} {d : Document}
    (h : Document.parse levels text = .ok d) :
    (∀ v ∈ Tree.walk (fun _ => true) d.trees, v.tree.Lossless) ∧
      (Tree.fileToYaml d.trees).file? = some d.trees ∧
      ∀ {levels' : Nat} {text' : Text} {e : Document}, Document.parse levels' text' = .ok e →
        Tree.fileToYaml d.trees = Tree.fileToYaml e.trees → d.trees = e.trees := by
  obtain ⟨hd, hwalk⟩ := Document.lossless_trees h
  have hfile := Tree.file?_fileToYaml hd
  refine ⟨hwalk, hfile, ?_⟩
  intro levels' text' e he hyaml
  rw [hyaml, Tree.file?_fileToYaml (Document.lossless_trees he).1] at hfile
  exact (Option.some.inj hfile).symm

/-- A list of no item, of one and of two, attributes beside trees, and an error with its message. -/
theorem yaml_lossless_lists :
    ∃ d, Document.parse 5 (Text.ofString
        "render_mode unshaded; void f(in int a, int b) { g(); -h(1, c = 2); x += y[0]; }") = .ok d ∧
      (Tree.walk (fun _ => true) d.trees).length = 22 ∧
      (∀ v ∈ Tree.walk (fun _ => true) d.trees, v.tree.Lossless) ∧
      (Tree.fileToYaml d.trees).file? = some d.trees ∧
      ∀ {levels' : Nat} {text' : Text} {e : Document}, Document.parse levels' text' = .ok e →
        Tree.fileToYaml d.trees = Tree.fileToYaml e.trees → d.trees = e.trees := by
  obtain ⟨d, hd, hlen⟩ := Document.exists_parse 5 (Text.ofString
      "render_mode unshaded; void f(in int a, int b) { g(); -h(1, c = 2); x += y[0]; }")
    (fun d => (Tree.walk (fun _ => true) d.trees).length == 22) (by decide +kernel)
  exact ⟨d, hd, eq_of_beq hlen, yaml_lossless hd⟩

end ShaderSyntax
