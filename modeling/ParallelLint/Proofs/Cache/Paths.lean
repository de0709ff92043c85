import ParallelLint.Proofs.Cache.Entries

set_option autoImplicit false

namespace ParallelLint
open Json

theorem Json.readFields_mem {α β : Type} {read : Decoder β} {toJson : α → Json} {depth : Nat}
    {fields : List (String × α)} {found : List (String × β)}
    (h : readFields read (depth + 1)
      (.object (fields.map fun f => (f.1, toJson f.2)) : Json).tree = some found) :
    ∀ g ∈ found, ∃ f ∈ fields, g.1 = f.1 ∧ read depth (toJson f.2).tree = some g.2 := by
  rw [tree, fieldTrees_eq, readFields] at h
  induction fields generalizing found with
  | nil =>
    cases h
    exact fun g hg => absurd hg List.not_mem_nil
  | cons f rest ih =>
    simp only [List.map_cons, List.mapM_cons, text_piecesOf, Option.bind_eq_bind, Option.bind_some,
      Option.pure_def, Option.bind_eq_some_iff, Option.some.injEq] at h
    obtain ⟨first, ⟨value, here, rfl⟩, more, others, rfl⟩ := h
    intro g hg
    rcases List.mem_cons.1 hg with rfl | hg
    · exact ⟨f, List.mem_cons_self .., rfl, here⟩
    · obtain ⟨f', mem, same⟩ := ih others g hg
      exact ⟨f', List.mem_cons_of_mem _ mem, same⟩

theorem LintResult.read_path {r found : LintResult} {depth : Nat}
    (h : LintResult.read (depth + 1) r.toJson.tree = some found) : found.path = r.path := by
  have distinct : (r.fields.map Prod.fst).Nodup := r.names_fields.nodup (by simp [names])
  have record := readRecord_tree names distinct 8 depth
  rw [fields_trees, names] at record
  simp only [LintResult.read, toJson, record, required, readString_tree, Option.bind_eq_bind,
    Option.bind_some, Option.pure_def, Option.bind_eq_some_iff, Option.some.injEq] at h
  obtain ⟨-, -, -, -, -, -, -, -, -, -, -, -, -, -, -, -, -, -, rfl⟩ := h
  rfl

theorem CacheEntry.read_path {e found : CacheEntry} {depth : Nat}
    (h : CacheEntry.read (depth + 2) e.toJson.tree = some found) :
    found.result.path = e.result.path := by
  have distinct : (e.fields.map Prod.fst).Nodup := e.names_fields.nodup (by simp [names])
  have record := readRecord_tree names distinct 3 (depth + 1)
  rw [fields_trees, ← toJson_eq, names] at record
  simp only [CacheEntry.read, record, required, readString_tree, Option.bind_eq_bind,
    Option.bind_some, Option.pure_def, Option.bind_eq_some_iff, Option.some.injEq] at h
  obtain ⟨-, -, result, read, -, -, rfl⟩ := h
  exact LintResult.read_path read

theorem CacheEntry.hadSource_of_tree {e f : CacheEntry} (same : e.toJson.tree = f.toJson.tree) :
    e.hadSource = f.hadSource := by
  have fields : fieldTrees e.fields = fieldTrees f.fields := by simpa [toJson_eq, tree] using same
  have length := congrArg List.length fields
  rw [fieldTrees_eq, fieldTrees_eq, List.length_map, List.length_map] at length
  cases had : e.hadSource <;> cases had' : f.hadSource <;>
    simp [CacheEntry.fields, had, had'] at length ⊢

/-- The result of an entry is for the file that the entry is kept under. -/
def CacheEntry.Named (key : Path) (e : CacheEntry) : Prop := e.result.path.parts = key.parts

theorem CacheEntry.Named.holds {key : Path} {e : CacheEntry} (h : e.Named key) :
    Cache.Holds CacheEntry.Named key e :=
  ⟨h, fun _ _ _ same => h.trans same.symm⟩

namespace Cache

theorem document_mem {c : Cache} {version : Nat} {document : Document}
    (h : Document.read nestingLimit (c.document version).tree = some document) :
    ∀ g ∈ document.entries, ∃ e ∈ c.entries.entries, g.1 = e.1.text ∧
      g.2.result.path = e.2.result.path := by
  have distinct : ((c.fields version).map Prod.fst).Nodup := by simp [fields]
  have record := readRecord_tree ["version", "strategy", "entries"] distinct 3 126
  have trees : ["version", "strategy", "entries"].map (fieldTree (c.fields version)) =
      [some (ofNat version).tree, some (Json.string c.strategy.text).tree,
        some (Json.object (c.texts.map fun e => (e.1, e.2.toJson))).tree] := by
    simp only [fieldTree, fields, texts, List.map_cons, List.map_nil, List.map_map]
    rfl
  rw [trees, ← Cache.document] at record
  simp only [Document.read, nestingLimit, record, required, Option.bind_eq_bind, Option.pure_def,
    Option.bind_eq_some_iff, Option.some.injEq] at h
  obtain ⟨-, -, -, -, found, read, rfl⟩ := h
  intro g hg
  obtain ⟨f, mem, name, value⟩ := readFields_mem read g hg
  obtain ⟨e, he, rfl⟩ := List.mem_map.1 mem
  exact ⟨e, he, name, CacheEntry.read_path value⟩

theorem mem_of_bytes {c d : Cache} (same : c.bytes = d.bytes) {key : Path} {e : CacheEntry}
    (mem : (key, e) ∈ d.entries.entries) :
    ∃ f, (key, f) ∈ c.entries.entries ∧ f.toJson.tree = e.toJson.tree := by
  have trees : (c.document formatVersion).tree = (d.document formatVersion).tree := by
    have read := read_compact (c.plain_document formatVersion)
    have read' := read_compact (d.plain_document formatVersion)
    exact Option.some.inj (read.symm.trans ((congrArg Tree.read? same).trans read'))
  have entries : fieldTrees (c.entries.entries.map fun e => (e.1.text, e.2.toJson)) =
      fieldTrees (d.entries.entries.map fun e => (e.1.text, e.2.toJson)) := by
    have fields : fieldTrees (c.fields formatVersion) = fieldTrees (d.fields formatVersion) :=
      by simpa only [document, tree, Tree.object.injEq] using trees
    rw [fieldTrees_eq, fieldTrees_eq] at fields
    have last := congrArg (fun trees => trees[2]?.map Prod.snd) fields
    simpa only [Cache.fields, List.map_cons, List.getElem?_cons_succ, List.getElem?_cons_zero,
      Option.map_some, Option.some.injEq, tree, Tree.object.injEq] using last
  rw [fieldTrees_eq, fieldTrees_eq, List.map_map, List.map_map] at entries
  have there := List.mem_map_of_mem (f := (fun field => (piecesOf field.1.toList, field.2.tree)) ∘
    fun e : Path × CacheEntry => (e.1.text, e.2.toJson)) mem
  rw [← entries] at there
  obtain ⟨⟨key', f⟩, mem', written⟩ := List.mem_map.1 there
  obtain ⟨names, values⟩ := Prod.mk.inj written
  have texts := congrArg text? names
  rw [text_piecesOf, text_piecesOf] at texts
  cases key
  cases key'
  obtain rfl := Option.some.inj texts
  exact ⟨f, mem', values⟩

theorem ofBytes_named {c : Cache} (named : c.All CacheEntry.Named) (path : Path)
    (strategy : CacheStrategy) : (ofBytes path strategy c.bytes).All CacheEntry.Named := by
  unfold ofBytes
  split
  · rename_i document found
    split
    · have read : Tree.read? c.bytes = some (c.document formatVersion).tree :=
        read_compact (plain_document c formatVersion)
      rw [decode?, read, Option.bind_some] at found
      intro e he
      obtain ⟨f, mem, same, value⟩ := Sorted.mem_ofList_key he
      obtain ⟨g, hg, rfl⟩ := List.mem_map.1 mem
      obtain ⟨old, known, name, result⟩ := document_mem found g hg
      have key : e.1.parts = old.1.parts := by
        rw [Path.compare_eq.1 same, name]
      rw [← value, CacheEntry.Named, result, key]
      exact named old known
    · exact all_empty _ _
  · exact all_empty _ _

theorem load_named {fs : FileSystem} {path : Path} {strategy : CacheStrategy} {cache : Cache}
    (h : load fs path strategy = .ok cache)
    (written : ∀ bytes, fs.read path = .ok bytes → Written (fun _ => CacheEntry.Named) bytes) :
    cache.All CacheEntry.Named := by
  unfold load at h
  split at h
  · rename_i bytes read
    cases h
    obtain ⟨saved, named, rfl⟩ := written bytes read
    exact ofBytes_named named path strategy
  · split at h <;> cases h
    exact all_empty _ _

end Cache
end ParallelLint
