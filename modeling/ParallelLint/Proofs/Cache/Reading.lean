import ParallelLint.Cache.Written
import ParallelLint.Proofs.Collection.Sorted
import ParallelLint.Proofs.Json.Records

set_option autoImplicit false

namespace ParallelLint
open Json

namespace Json

theorem plainFields_append (fields more : List (String × Json)) :
    PlainFields (fields ++ more) ↔ PlainFields fields ∧ PlainFields more := by
  simp only [plainFields_iff, List.mem_append]
  exact ⟨fun h => ⟨fun f hf => h f (.inl hf), fun f hf => h f (.inr hf)⟩,
    fun h f hf => hf.elim (h.1 f) (h.2 f)⟩

theorem plainFields_optional {α : Type} {name : String} {toJson : α → Json} {value : Option α}
    (plain : ∀ a, (toJson a).Plain) : PlainFields (optionalField name toJson value) := by
  cases value with
  | none => trivial
  | some a => exact ⟨plain a, trivial⟩

theorem plain_list {α : Type} {toJson : α → Json} {items : List α}
    (plain : ∀ a, (toJson a).Plain) : Plain (.array (items.map toJson)) := by
  refine (plainItems_iff _).2 fun j hj => ?_
  obtain ⟨a, -, rfl⟩ := List.mem_map.1 hj
  exact plain a

end Json

def Fix.Small (f : Fix) : Prop := f.start < UInt64.size ∧ f.stop < UInt64.size

structure Message.Small (m : Message) : Prop where
  line : m.line < UInt64.size
  column : m.column < UInt64.size
  endLine : ∀ n ∈ m.endLine, n < UInt64.size
  endColumn : ∀ n ∈ m.endColumn, n < UInt64.size
  fix : ∀ f ∈ m.fix, f.Small

def Fix.fields (f : Fix) : List (String × Json) :=
  [("range", .array ([f.start, f.stop].map .ofNat)), ("text", .string f.text)]

theorem Fix.toJson_eq (f : Fix) : f.toJson = .object f.fields := rfl

theorem Fix.read_toJson {f : Fix} (small : f.Small) (depth : Nat) :
    Fix.read (depth + 2) f.toJson.tree = some f := by
  have distinct : (f.fields.map Prod.fst).Nodup := by simp [fields]
  have record := readRecord_tree ["range", "text"] distinct 2 (depth + 1)
  have trees : ["range", "text"].map (fieldTree f.fields) =
      [some (Json.array ([f.start, f.stop].map .ofNat)).tree, some (Json.string f.text).tree] := by
    simp [fieldTree, fields, List.lookup_cons]
  rw [trees, ← toJson_eq] at record
  have bounds : ∀ n ∈ [f.start, f.stop], n < UInt64.size := by
    simp only [List.mem_cons, List.not_mem_nil, or_false, forall_eq_or_imp, forall_eq]
    exact small
  have range := readList_tree depth fun n hn => readNatural_tree (bounds n hn) depth
  simp only [Fix.read, record, required, readRange, range, readString_tree, Option.bind_eq_bind,
    Option.bind_some, Option.pure_def]

theorem Severity.read_text (depth : Nat) (s : Severity) :
    Severity.read depth (.string s.text : Json).tree = some s := by
  cases s <;> exact readChoice_tree rfl depth

theorem Fix.written_toJson (f : Fix) : f.toJson.Written := written_object _

theorem Fix.plain_toJson (f : Fix) : f.toJson.Plain := by
  simp [Fix.toJson, Plain, PlainFields, PlainItems, ofNat]

def Message.names : List String :=
  ["rule_id", "severity", "fatal", "message", "line", "column", "end_line", "end_column", "fix"]

def Message.fields (m : Message) : List (String × Json) :=
  [("rule_id", m.ruleId.elim .null .string), ("severity", .string m.severity.text)] ++
    (if m.fatal then [("fatal", .bool true)] else []) ++
    [("message", .string m.text), ("line", .ofNat m.line), ("column", .ofNat m.column)] ++
    optionalField "end_line" .ofNat m.endLine ++
    optionalField "end_column" .ofNat m.endColumn ++
    optionalField "fix" Fix.toJson m.fix

theorem Message.toJson_eq (m : Message) : m.toJson = .object m.fields := rfl

theorem Message.names_fields (m : Message) : (m.fields.map Prod.fst).Sublist names := by
  have fatal : ((if m.fatal then [("fatal", Json.bool true)] else []).map Prod.fst).Sublist
      ["fatal"] := by
    cases m.fatal <;> simp
  simp only [fields, List.map_append]
  exact (((((List.Sublist.refl _).append fatal).append (.refl _)).append
    (names_optional _ _ _)).append (names_optional _ _ _)).append (names_optional _ _ _)

theorem Message.fields_trees (m : Message) : names.map (fieldTree m.fields) =
    [some (m.ruleId.elim Json.null .string).tree, some (Json.string m.severity.text).tree,
      if m.fatal then some (Json.bool true).tree else none, some (Json.string m.text).tree,
      some (ofNat m.line).tree, some (ofNat m.column).tree, (m.endLine.map ofNat).map tree,
      (m.endColumn.map ofNat).map tree, (m.fix.map Fix.toJson).map tree] := by
  cases fatal : m.fatal <;>
    simp [names, fieldTree, fields, List.lookup_append, List.lookup_cons, lookup_optional, fatal]

theorem readOption_string (depth : Nat) (s : Option String) :
    defaulted none (readOption readString) depth (some (s.elim Json.null .string).tree) =
      some s := by
  cases s with
  | none => rfl
  | some s => exact readOption_tree (written_string s) (readString_tree depth s)

theorem Message.read_toJson {m : Message} (small : m.Small) (depth : Nat) :
    Message.read (depth + 3) m.toJson.tree = some m := by
  have distinct : (m.fields.map Prod.fst).Nodup := m.names_fields.nodup (by simp [names])
  have record := readRecord_tree names distinct 6 (depth + 2)
  rw [fields_trees, ← toJson_eq, names] at record
  have fatal : defaulted false readBool (depth + 2)
      (if m.fatal then some (Json.bool true).tree else none) = some m.fatal := by
    cases m.fatal <;> rfl
  have endLine := defaulted_natural (depth + 2) small.endLine
  have endColumn := defaulted_natural (depth + 2) small.endColumn
  have fix := defaulted_optional (depth + 2) Fix.written_toJson fun f hf =>
    Fix.read_toJson (small.fix f hf) depth
  simp only [Message.read, record, readOption_string, required, Severity.read_text, fatal,
    readString_tree, readNatural_tree small.line, readNatural_tree small.column, endLine,
    endColumn, fix, Option.bind_eq_bind, Option.bind_some, Option.pure_def]

theorem Message.plain_toJson (m : Message) : m.toJson.Plain := by
  have rule : (m.ruleId.elim Json.null .string).Plain := by cases m.ruleId <;> trivial
  have fatal : PlainFields (if m.fatal then [("fatal", .bool true)] else []) := by
    cases m.fatal <;> simp [PlainFields, Plain]
  change PlainFields m.fields
  simp only [fields, plainFields_append]
  refine ⟨⟨⟨⟨⟨⟨rule, trivial, trivial⟩, fatal⟩, trivial, trivial, trivial, trivial⟩, ?_⟩, ?_⟩, ?_⟩
  · exact plainFields_optional fun _ => trivial
  · exact plainFields_optional fun _ => trivial
  · exact plainFields_optional Fix.plain_toJson

structure LintResult.Small (r : LintResult) : Prop where
  messages : ∀ m ∈ r.messages, m.Small
  suppressed : ∀ m ∈ r.suppressed, m.Small
  errors : r.counts.errors < UInt64.size
  fatalErrors : r.counts.fatalErrors < UInt64.size
  warnings : r.counts.warnings < UInt64.size
  fixableErrors : r.counts.fixableErrors < UInt64.size
  fixableWarnings : r.counts.fixableWarnings < UInt64.size

namespace LintResult

def names : List String :=
  ["file_path", "messages", "suppressed_messages", "error_count", "fatal_error_count",
    "warning_count", "fixable_error_count", "fixable_warning_count", "output", "source"]

theorem names_fields (r : LintResult) : (r.fields.map Prod.fst).Sublist names := by
  simp only [fields, List.map_append]
  exact ((List.Sublist.refl _).append (names_optional _ _ _)).append (names_optional _ _ _)

theorem fields_trees (r : LintResult) : names.map (fieldTree r.fields) =
    [some (Json.string r.path.text).tree, some (Json.array (r.messages.map Message.toJson)).tree,
      some (Json.array (r.suppressed.map Message.toJson)).tree,
      some (ofNat r.counts.errors).tree, some (ofNat r.counts.fatalErrors).tree,
      some (ofNat r.counts.warnings).tree, some (ofNat r.counts.fixableErrors).tree,
      some (ofNat r.counts.fixableWarnings).tree, (r.output.map Json.string).map tree,
      (r.source.map Json.string).map tree] := by
  simp [names, fieldTree, fields, List.lookup_append, List.lookup_cons, lookup_optional]

theorem read_toJson {r : LintResult} (small : r.Small) (depth : Nat) :
    LintResult.read (depth + 5) r.toJson.tree = some r := by
  have distinct : (r.fields.map Prod.fst).Nodup := r.names_fields.nodup (by simp [names])
  have record := readRecord_tree names distinct 8 (depth + 4)
  rw [fields_trees, names] at record
  have messages := readList_tree (depth + 3) fun m hm =>
    Message.read_toJson (small.messages m hm) depth
  have suppressed := readList_tree (depth + 3) fun m hm =>
    Message.read_toJson (small.suppressed m hm) depth
  have defaults : defaulted [] (readList Message.read) (depth + 4)
      (some (Json.array (r.suppressed.map Message.toJson)).tree) = some r.suppressed := suppressed
  simp only [LintResult.read, toJson, record, required, readString_tree, messages, defaults,
    readNatural_tree small.errors, readNatural_tree small.fatalErrors,
    readNatural_tree small.warnings, readNatural_tree small.fixableErrors,
    readNatural_tree small.fixableWarnings, defaulted_string, Option.bind_eq_bind,
    Option.bind_some, Option.pure_def]

theorem plain_toJson (r : LintResult) : r.toJson.Plain := by
  change PlainFields r.fields
  simp only [fields, plainFields_append]
  exact ⟨⟨⟨trivial, plain_list Message.plain_toJson, plain_list Message.plain_toJson, trivial,
    trivial, trivial, trivial, trivial, trivial⟩, plainFields_optional fun _ => trivial⟩,
    plainFields_optional fun _ => trivial⟩

end LintResult

structure Signature.Small (s : Signature) : Prop where
  size : s.size < UInt64.size
  modified : ∀ n ∈ s.modified, n < UInt64.size

namespace Signature

def names : List String := ["size", "modified_ns", "content_hash"]

def fields (s : Signature) : List (String × Json) :=
  [("size", .ofNat s.size)] ++ optionalField "modified_ns" .ofNat s.modified ++
    optionalField "content_hash" .string s.hash

theorem toJson_eq (s : Signature) : s.toJson = .object s.fields := rfl

theorem names_fields (s : Signature) : (s.fields.map Prod.fst).Sublist names := by
  simp only [fields, List.map_append]
  exact ((List.Sublist.refl _).append (names_optional _ _ _)).append (names_optional _ _ _)

theorem fields_trees (s : Signature) : names.map (fieldTree s.fields) =
    [some (ofNat s.size).tree, (s.modified.map ofNat).map tree,
      (s.hash.map Json.string).map tree] := by
  simp [names, fieldTree, fields, List.lookup_append, List.lookup_cons, lookup_optional]

theorem read_toJson {s : Signature} (small : s.Small) (depth : Nat) :
    Signature.read (depth + 1) s.toJson.tree = some s := by
  have distinct : (s.fields.map Prod.fst).Nodup := s.names_fields.nodup (by simp [names])
  have record := readRecord_tree names distinct 1 depth
  rw [fields_trees, ← toJson_eq, names] at record
  have modified := defaulted_natural depth small.modified
  simp only [Signature.read, record, required, readNatural_tree small.size, modified,
    defaulted_string, Option.bind_eq_bind, Option.bind_some, Option.pure_def]

theorem plain_toJson (s : Signature) : s.toJson.Plain := by
  change PlainFields s.fields
  simp only [fields, plainFields_append]
  exact ⟨⟨⟨trivial, trivial⟩, plainFields_optional fun _ => trivial⟩,
    plainFields_optional fun _ => trivial⟩

end Signature

structure CacheEntry.Small (e : CacheEntry) : Prop where
  signature : e.signature.Small
  result : e.result.Small

namespace CacheEntry

def names : List String := ["signature", "config_fingerprint", "result", "had_source"]

def fields (e : CacheEntry) : List (String × Json) :=
  [("signature", e.signature.toJson), ("config_fingerprint", .string e.fingerprint.hex),
    ("result", e.result.toJson)] ++ if e.hadSource then [("had_source", .bool true)] else []

theorem toJson_eq (e : CacheEntry) : e.toJson = .object e.fields := rfl

theorem names_fields (e : CacheEntry) : (e.fields.map Prod.fst).Sublist names := by
  cases source : e.hadSource <;> simp [fields, names, source]

theorem fields_trees (e : CacheEntry) : names.map (fieldTree e.fields) =
    [some e.signature.toJson.tree, some (Json.string e.fingerprint.hex).tree,
      some e.result.toJson.tree, if e.hadSource then some (Json.bool true).tree else none] := by
  cases source : e.hadSource <;>
    simp [names, fieldTree, fields, List.lookup_cons, source]

theorem read_toJson {e : CacheEntry} (small : e.Small) (depth : Nat) :
    CacheEntry.read (depth + 6) e.toJson.tree = some e := by
  have distinct : (e.fields.map Prod.fst).Nodup := e.names_fields.nodup (by simp [names])
  have record := readRecord_tree names distinct 3 (depth + 5)
  rw [fields_trees, ← toJson_eq, names] at record
  have source : defaulted false readBool (depth + 5)
      (if e.hadSource then some (Json.bool true).tree else none) = some e.hadSource := by
    cases e.hadSource <;> rfl
  simp only [CacheEntry.read, record, required, Signature.read_toJson small.signature (depth + 4),
    readString_tree, LintResult.read_toJson small.result depth, source, Option.bind_eq_bind,
    Option.bind_some, Option.pure_def]

theorem plain_toJson (e : CacheEntry) : e.toJson.Plain := by
  have source : PlainFields (if e.hadSource then [("had_source", .bool true)] else []) := by
    cases e.hadSource <;> simp [PlainFields, Plain]
  change PlainFields e.fields
  simp only [fields, plainFields_append]
  exact ⟨⟨Signature.plain_toJson e.signature, trivial, LintResult.plain_toJson e.result, trivial⟩,
    source⟩

end CacheEntry

namespace Cache

def Small (c : Cache) : Prop := ∀ e ∈ c.entries.entries, e.2.Small

def fields (version : Nat) (c : Cache) : List (String × Json) :=
  [("version", .ofNat version), ("strategy", .string c.strategy.text),
    ("entries", .object (c.entries.entries.map fun e => (e.1.text, e.2.toJson)))]

def document (version : Nat) (c : Cache) : Json := .object (c.fields version)

theorem strategy_read (depth : Nat) (s : CacheStrategy) :
    CacheStrategy.read depth (.string s.text : Json).tree = some s := by
  cases s <;> exact readChoice_tree rfl depth

def texts (c : Cache) : List (String × CacheEntry) := c.entries.entries.map fun e => (e.1.text, e.2)

theorem document_read {c : Cache} (small : c.Small) {version : Nat}
    (few : version < UInt64.size) :
    Document.read nestingLimit (c.document version).tree = some ⟨version, c.strategy, c.texts⟩ := by
  have distinct : ((c.fields version).map Prod.fst).Nodup := by simp [fields]
  have record := readRecord_tree ["version", "strategy", "entries"] distinct 3 126
  have trees : ["version", "strategy", "entries"].map (fieldTree (c.fields version)) =
      [some (ofNat version).tree, some (Json.string c.strategy.text).tree,
        some (Json.object (c.texts.map fun e => (e.1, e.2.toJson))).tree] := by
    simp only [fieldTree, fields, texts, List.map_cons, List.map_nil, List.map_map]
    rfl
  rw [trees, ← document] at record
  have each : ∀ e ∈ c.texts, CacheEntry.read 125 e.2.toJson.tree = some e.2 := by
    intro e he
    obtain ⟨f, hf, rfl⟩ := List.mem_map.1 he
    exact CacheEntry.read_toJson (small f hf) 119
  have entries := readFields_tree 125 each
  simp only [Document.read, nestingLimit, record, required, readNatural_tree few,
    strategy_read, entries, Option.bind_eq_bind, Option.bind_some, Option.pure_def]

theorem plain_document (c : Cache) (version : Nat) : (c.document version).Plain := by
  have entries : PlainFields (c.entries.entries.map fun e => (e.1.text, e.2.toJson)) := by
    refine (plainFields_iff _).2 fun f hf => ?_
    obtain ⟨e, -, rfl⟩ := List.mem_map.1 hf
    exact CacheEntry.plain_toJson e.2
  exact ⟨trivial, trivial, entries, trivial⟩

theorem decode_document {c : Cache} (small : c.Small) {version : Nat}
    (few : version < UInt64.size) :
    decode? Document.read (Text.bytesOf (c.document version).compact) =
      some ⟨version, c.strategy, c.texts⟩ := by
  rw [decode?, read_compact (plain_document c version), Option.bind_some, document_read small few]

theorem load_read {fs : FileSystem} {path : Path} {bytes : Text.Bytes}
    (read : fs.read path = .ok bytes) (strategy : CacheStrategy) :
    load fs path strategy = .ok (ofBytes path strategy bytes) := by
  rw [load, read]

theorem ofBytes_bytes {c : Cache} (small : c.Small) (path : Path) (strategy : CacheStrategy) :
    ofBytes path strategy c.bytes =
      if c.strategy = strategy then ⟨path, strategy, c.entries⟩ else empty path strategy := by
  have keys : (c.texts.map fun e => ((⟨e.1⟩ : Path), e.2)) = c.entries.entries := by
    rw [texts, List.map_map]
    exact List.map_id _
  have decoded : decode? Document.read c.bytes =
      some ⟨formatVersion, c.strategy, c.texts⟩ := decode_document small (by decide)
  simp only [ofBytes, decoded, decide_true, Bool.true_and, decide_eq_true_eq, keys,
    Sorted.ofList_entries]

end Cache
end ParallelLint
