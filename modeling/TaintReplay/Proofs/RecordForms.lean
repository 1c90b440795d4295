import TaintReplay.Summary.Record

/-!
# Written records

Records are written in one form and read in many. Reading a written record gives
the record back, level by level: gaps and field steps, endpoints, flows, records.
The only proviso is that positions are 64-bit words (`Record.InRange`), and
whatever is read fulfils it. So the written form of what was read does not depend on
how it was given: on members left out, on `null`, on unknown members, on the order
of the members or on the positional form.

## Main results

* `Record.ofJson?_toJson`: a written record is read back.
* `Record.inRange_of_ofJson?`: what is read has positions that can be written.
* `records_survive_writing`: the written form is canonical.
-/

namespace TaintReplay

/-! ## Readers of single values -/

namespace Json

variable {α : Type}

/-- A list is read back if its items are. -/
theorem toList?_map {read : Json → Option α} {write : α → Json} {items : List α}
    (back : ∀ a ∈ items, read (write a) = some a) :
    toList? read (.arr (items.map write)) = some items := by
  rw [toList?, List.mapM_map]
  induction items with
  | nil => rfl
  | cons a items ih =>
      have hhead : read (write a) = some a := back a (by simp)
      have htail := ih fun b hb => back b (List.mem_cons_of_mem a hb)
      simp only [List.mapM_cons, Function.comp_apply, hhead, htail, bind_pure_comp,
        Option.bind_eq_bind, Option.bind_some, Option.map_eq_map, Option.map_some]

/-- Each item that is read comes from one of the list. -/
theorem exists_of_mem_toList? {read : Json → Option α} {v : Json} {items : List α}
    (h : toList? read v = some items) {a : α} (ha : a ∈ items) : ∃ w, read w = some a := by
  cases v with
  | arr values =>
      rw [toList?] at h
      induction values generalizing items with
      | nil =>
          obtain rfl : [] = items := Option.some.inj h
          cases ha
      | cons w values ih =>
          rw [List.mapM_cons] at h
          obtain ⟨b, hb, h⟩ := Option.bind_eq_some_iff.1 h
          obtain ⟨rest, hrest, h⟩ := Option.bind_eq_some_iff.1 h
          obtain rfl : b :: rest = items := Option.some.inj h
          rcases List.mem_cons.1 ha with rfl | ha
          · exact ⟨w, hb⟩
          · exact ih ha hrest
  | null | bool | int | decimal | str | obj => cases h

theorem toWord?_int {n : Nat} (h : n < wordBound) : toWord? (int n) = some n := if_pos h

theorem lt_of_toWord? {v : Json} {n : Nat} (h : toWord? v = some n) : n < wordBound := by
  unfold toWord? at h
  split at h
  · split at h
    · rename_i hlt
      exact Option.some.inj h ▸ hlt
    · cases h
  · cases h

/-- An optional member holds its default or what was read. -/
theorem optional?_cases {members : List (String × Json)} {name : String} {default a : α}
    {read : Json → Option α} (h : optional? members name default read = some a) :
    a = default ∨ ∃ v, read v = some a := by
  unfold optional? at h
  split at h
  · exact .inl (Option.some.inj h).symm
  · exact .inr ⟨_, h⟩

/-- A value that may be absent is read as absent or by its own reader. -/
theorem toOption?_cases {read : Json → Option α} {v : Json} {a : Option α}
    (h : toOption? read v = some a) : a = none ∨ ∃ b, a = some b ∧ read v = some b := by
  unfold toOption? at h
  split at h
  · exact .inl (Option.some.inj h).symm
  · obtain ⟨b, hb, rfl⟩ := Option.map_eq_some_iff.1 h
    exact .inr ⟨b, rfl, hb⟩

end Json

/-! ## Gaps, field steps and kinds -/

theorem Gap.ofJson?_toJson (g : Gap) : Gap.ofJson? g.toJson = some g := rfl

theorem FieldStep.ofJson?_toJson (s : FieldStep) : FieldStep.ofJson? s.toJson = some s := rfl

theorem Kind.ofJson?_toJson (k : Kind) : Kind.ofJson? k.toJson = some k := Kind.ofName?_render k

/-! ## Endpoints -/

namespace Endpoint

/-- The position of an endpoint, if it has one, is a word. -/
def InRange (e : Endpoint) : Prop := ∀ i ∈ e.role.index, i < Json.wordBound

/-- What stands under each name in a written endpoint. Absent values and empty paths
are not there. -/
theorem members_toJson (e : Endpoint) :
    ∃ ms, e.toJson = .obj ms ∧
      Json.member? ms "type" = some e.role.kind.toJson ∧
      Json.member? ms "parameter_index" = e.role.index.map (fun i : Nat => Json.int i) ∧
      Json.member? ms "base_type" = some (.str e.base) ∧
      Json.member? ms "access_path" =
        (if e.path.isEmpty then none else some (.arr (e.path.map FieldStep.toJson))) ∧
      Json.member? ms "taint_sub_fields" = some (.bool e.subFields) ∧
      Json.member? ms "gap" = e.gap.map Gap.toJson := by
  refine ⟨_, rfl, ?_⟩
  obtain ⟨⟨kind, index⟩, base, path, subFields, gap⟩ := e
  cases index <;> cases path <;> cases gap <;> exact ⟨rfl, rfl, rfl, rfl, rfl, rfl⟩

/-- An endpoint whose position is a word is read back. -/
theorem ofJson?_toJson {e : Endpoint} (he : e.InRange) : ofJson? e.toJson = some e := by
  obtain ⟨ms, hms, htype, hindex, hbase, hpath, hsub, hgap⟩ := members_toJson e
  have hkind : Json.required? ms "type" Kind.ofJson? = some e.role.kind := by
    rw [Json.required?, htype]
    exact Kind.ofJson?_toJson _
  have hindex : Json.optional? ms "parameter_index" none (Json.toOption? Json.toWord?) =
      some e.role.index := by
    rw [Json.optional?, hindex]
    cases hi : e.role.index with
    | none => rfl
    | some i =>
        show (Json.toWord? (.int i)).map some = _
        rw [Json.toWord?_int (he i hi), Option.map_some]
  have hpath : Json.optional? ms "access_path" [] (Json.toList? FieldStep.ofJson?) =
      some e.path := by
    rw [Json.optional?, hpath]
    cases hsteps : e.path with
    | nil => rfl
    | cons step path => exact Json.toList?_map fun s _ => FieldStep.ofJson?_toJson s
  have hgap : Json.optional? ms "gap" none (Json.toOption? Gap.ofJson?) = some e.gap := by
    rw [Json.optional?, hgap]
    cases e.gap <;> rfl
  have hbase : Json.required? ms "base_type" Json.toStr? = some e.base := by
    rw [Json.required?, hbase]
    rfl
  have hsub : Json.optional? ms "taint_sub_fields" false Json.toBool? = some e.subFields := by
    rw [Json.optional?, hsub]
    rfl
  simp [hms, ofJson?, Json.members?, hkind, hindex, hbase, hpath, hsub, hgap]

/-- What is read has a word as position, if any. -/
theorem inRange_of_ofJson? {v : Json} {e : Endpoint} (h : ofJson? v = some e) : e.InRange := by
  simp only [ofJson?, Option.bind_eq_bind, Option.bind_eq_some_iff] at h
  obtain ⟨ms, -, kind, -, index, hindex, base, -, path, -, subFields, -, gap, -, h⟩ := h
  obtain rfl := Option.some.inj h
  intro i hi
  obtain rfl : index = some i := hi
  rcases Json.optional?_cases hindex with h | ⟨w, hw⟩
  · cases h
  · rcases Json.toOption?_cases hw with h | ⟨j, hj, hread⟩
    · cases h
    · obtain rfl := Option.some.inj hj
      exact Json.lt_of_toWord? hread

end Endpoint

/-! ## Flows -/

namespace Flow

/-- The positions at both ends are words. -/
def InRange (f : Flow) : Prop := f.source.InRange ∧ f.sink.InRange

theorem ofJson?_toJson {f : Flow} (hf : f.InRange) : ofJson? f.toJson = some f := by
  have hsource := Endpoint.ofJson?_toJson hf.1
  have hsink := Endpoint.ofJson?_toJson hf.2
  simp [ofJson?, toJson, Json.members?, Json.required?, Json.optional?, Json.member?,
    List.lookup_cons, Json.toStr?, Json.toBool?, hsource, hsink]

theorem inRange_of_ofJson? {v : Json} {f : Flow} (h : ofJson? v = some f) : f.InRange := by
  simp only [ofJson?, Option.bind_eq_bind, Option.bind_eq_some_iff, Json.required?] at h
  obtain ⟨ms, -, method, -, source, ⟨v, -, hsource⟩, sink, ⟨w, -, hsink⟩, isAlias, -, h⟩ := h
  obtain rfl := Option.some.inj h
  exact ⟨Endpoint.inRange_of_ofJson? hsource, Endpoint.inRange_of_ofJson? hsink⟩

end Flow

/-! ## Records -/

namespace Record

/-- All positions in the flows are words. -/
def InRange (r : Record) : Prop := ∀ f ∈ r.flows, f.InRange

/-- A record whose positions are words is read back from its written form. -/
theorem ofJson?_toJson {r : Record} (hr : r.InRange) : ofJson? r.toJson = some r := by
  have hflows := Json.toList?_map fun f hf => Flow.ofJson?_toJson (hr f hf)
  simp [ofJson?, toJson, Json.members?, Json.required?, Json.optional?, Json.member?,
    List.lookup_cons, Json.toStr?, hflows]

/-- Whatever the form it was given in, a record that is read can be written. -/
theorem inRange_of_ofJson? {v : Json} {r : Record} (h : ofJson? v = some r) : r.InRange := by
  simp only [ofJson?, Option.bind_eq_bind, Option.bind_eq_some_iff] at h
  obtain ⟨ms, -, className, -, flows, hflows, h⟩ := h
  obtain rfl := Option.some.inj h
  intro f hf
  rcases Json.optional?_cases hflows with rfl | ⟨w, hw⟩
  · cases hf
  · obtain ⟨u, hu⟩ := Json.exists_of_mem_toList? hw hf
    exact Flow.inRange_of_ofJson? hu

/-- The written form tells records apart. -/
theorem toJson_inj {r s : Record} (hr : r.InRange) (hs : s.InRange) :
    r.toJson = s.toJson ↔ r = s := by
  refine ⟨fun h => ?_, fun h => h ▸ rfl⟩
  have hread : some r = some s := by
    rw [← ofJson?_toJson hr, ← ofJson?_toJson hs, h]
  exact Option.some.inj hread

end Record

/-- A record is what is read from its written form. A value that is read as a record,
whatever it leaves out or adds, gives the same record and the same form once it has
been written, and two values have the same written form exactly if they are read as
the same record. -/
theorem records_survive_writing :
    (∀ r : Record, r.InRange → Record.ofJson? r.toJson = some r) ∧
    (∀ v r, Record.ofJson? v = some r →
      Record.ofJson? r.toJson = some r ∧
        (Record.ofJson? r.toJson).map Record.toJson = some r.toJson) ∧
    (∀ v w r s, Record.ofJson? v = some r → Record.ofJson? w = some s →
      (r.toJson = s.toJson ↔ r = s)) := by
  refine ⟨fun r hr => Record.ofJson?_toJson hr, fun v r h => ?_, fun v w r s hr hs => ?_⟩
  · have hback := Record.ofJson?_toJson (Record.inRange_of_ofJson? h)
    exact ⟨hback, by rw [hback, Option.map_some]⟩
  · exact Record.toJson_inj (Record.inRange_of_ofJson? hr) (Record.inRange_of_ofJson? hs)

namespace Sample

/-- A record with the largest position there is, a path and a gap. -/
def record : Record where
  className := "lib.Box"
  flows :=
    [{ method := "void put(java.lang.Object)"
       source := .parameter (Json.wordBound - 1) "java.lang.Object"
       sink := ((Endpoint.ofKind .field "lib.Box").withField "<lib.Box: int n>" "int").inGap
         ⟨"<lib.Map: void run()>"⟩
       isAlias := false }]

/-- The same record with members in another order, a comment, a `null`, a field step in
positional form, and without the flags. -/
def looseRecord : Json :=
  .obj
    [("flows", .arr [.obj
      [("comment", .null),
       ("sink", .obj
         [("gap", .arr [.str "<lib.Map: void run()>"]),
          ("access_path", .arr [.arr [.str "<lib.Box: int n>", .str "int"]]),
          ("base_type", .str "lib.Box"), ("parameter_index", .null),
          ("type", .obj [("Field", .null)])]),
       ("source", .obj
         [("type", .str "Parameter"), ("parameter_index", .int 18446744073709551615),
          ("base_type", .str "java.lang.Object"), ("gap", .null)]),
       ("method", .str "void put(java.lang.Object)")]]),
     ("class_name", .str "lib.Box")]

theorem record_survives_writing :
    record.InRange ∧ Record.ofJson? looseRecord = some record ∧
    Record.ofJson? record.toJson = some record ∧
    (Record.ofJson? record.toJson).map Record.toJson = some record.toJson ∧
    ∃ other, Record.ofJson? (.arr [.str "lib.Box"]) = some other ∧
      ¬ record.toJson = other.toJson := by
  have hrange : record.InRange := by
    simp [Record.InRange, record, Flow.InRange, Endpoint.InRange, Endpoint.parameter,
      Endpoint.ofKind, Endpoint.withField, Endpoint.inGap, Json.wordBound]
  have hloose : Record.ofJson? looseRecord = some record := by rfl
  have hother : Record.ofJson? (.arr [.str "lib.Box"]) = some ⟨"lib.Box", []⟩ := by rfl
  obtain ⟨hread, hwritten, htold⟩ := records_survive_writing
  refine ⟨hrange, hloose, hread record hrange, (hwritten _ _ hloose).2, _, hother, ?_⟩
  rw [htold _ _ _ _ hloose hother]
  exact fun h => absurd (congrArg (fun r => r.flows.length) h) (by decide)

end Sample

end TaintReplay
