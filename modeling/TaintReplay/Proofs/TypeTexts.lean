import TaintReplay.Proofs.SignatureGrammar

/-!
# Types and their texts

Types are carried as text in taints and compared after they were read again. A text is read from
its right end: blanks are dropped, a pair of brackets is taken off and makes an array of what is
left, and so on until what is left is a name. `JavaType.Spells` are the rules of this, one level
at a time. Each level takes signs away, so every text spells a type, and only one.

A type comes back from its written form exactly if its innermost type does, which is so unless
it is a class with an odd name: one with blanks around it, with brackets at its end, or that of
another type.

## Main results

* `JavaType.parse_blanks`: blanks around a text do not count.
* `JavaType.exists_spells`, `JavaType.spells_iff`: every text spells the type that is read.
* `JavaType.legible_iff`: which types are legible.
* `types_come_back_exactly`: reading by the rules, and which types come back.
-/

namespace TaintReplay

open Text

namespace JavaType

/-! ## Plain types -/

/-- The names of the types that are not classes. -/
def reservedNames : List String :=
  ["void", "boolean", "byte", "char", "short", "int", "long", "float", "double"]

/-- The innermost type of an array, and each other type itself. -/
def innermost : JavaType → JavaType
  | array element => element.innermost
  | t => t

/-- The type is no array and can be told from its name: it is not a class, or it is one whose
name has no blanks around it and no brackets at its end and is not reserved. -/
def Plain : JavaType → Prop
  | .void => True
  | .primitive _ => True
  | .class name => trim name = name ∧ ¬ ['[', ']'] <:+ name.toList ∧ name ∉ reservedNames
  | .array _ => False

theorem ofName_eq_class_iff {name : String} :
    ofName name = .class name ↔ name ∉ reservedNames := by
  unfold ofName
  split <;> simp_all [reservedNames]

theorem render_ofName (name : String) : (ofName name).render = name := by
  unfold ofName
  split <;> rfl

/-- The types that can be told from their written form are those with a plain innermost type. -/
theorem legible_iff {t : JavaType} : t.Legible ↔ t.innermost.Plain := by
  induction t with
  | void => exact Iff.rfl
  | primitive p => exact Iff.rfl
  | «class» name =>
      simp only [Legible, innermost, Plain]
      rw [ofName_eq_class_iff, trim, ← String.toList_inj, String.toList_ofList]
  | array element ih => exact ih

/-! ## Blanks around a text -/

theorem readDimensions_cons_blank {c : Char} (hc : isBlank c = true) (cs : List Char) :
    readDimensions (c :: cs) = readDimensions cs := by
  generalize hds : c :: cs = ds
  fun_cases readDimensions ds with
  | case1 ds n rest hrest =>
      obtain ⟨rfl, -⟩ := List.cons.inj hds
      cases hc
  | case2 d ds _ hblank =>
      obtain ⟨-, rfl⟩ := List.cons.inj hds
      rfl
  | case3 d ds _ hblank =>
      obtain ⟨rfl, -⟩ := List.cons.inj hds
      exact absurd hc hblank
  | case4 => cases hds

variable {blanks : List Char}

/-- Blanks at the end of a text do not count. -/
theorem readDimensions_blanks_append (hblanks : ∀ c ∈ blanks, isBlank c = true) (cs : List Char) :
    readDimensions (blanks ++ cs) = readDimensions cs := by
  induction blanks with
  | nil => rfl
  | cons c blanks ih =>
      rw [List.cons_append, readDimensions_cons_blank (hblanks c List.mem_cons_self)]
      exact ih fun d hd => hblanks d (List.mem_cons_of_mem _ hd)

/-- Blanks at the start of a text stay there, and the name is not changed by them. -/
theorem readDimensions_append_blanks (hblanks : ∀ c ∈ blanks, isBlank c = true) (cs : List Char) :
    (readDimensions (cs ++ blanks)).1 = (readDimensions cs).1 ∧
      (readDimensions (cs ++ blanks)).2.reverse.dropWhile isBlank =
        (readDimensions cs).2.reverse.dropWhile isBlank := by
  fun_induction readDimensions cs with
  | case1 cs n rest hrest ih =>
      rw [hrest] at ih
      exact ⟨congrArg (· + 1) ih.1, ih.2⟩
  | case2 c cs _ hblank ih =>
      rw [List.cons_append, readDimensions_cons_blank hblank]
      exact ih
  | case3 c cs hplain hblank =>
      have hbrackets : ¬ [']', '['] <+: c :: (cs ++ blanks) := by
        rintro ⟨rest, hrest⟩
        obtain ⟨hc, htail⟩ := List.cons.inj hrest
        cases cs with
        | nil =>
            replace htail : '[' :: rest = blanks := htail
            have hopen : '[' ∈ blanks := htail ▸ List.mem_cons_self
            cases hblanks '[' hopen
        | cons d cs => exact hplain cs hc.symm (congrArg (· :: cs) (List.cons.inj htail).1.symm)
      have hread := readDimensions_eq_zero (List.dropWhile_cons_of_neg hblank) hbrackets
      have hfirst : ∀ d ∈ blanks.reverse, isBlank d = true :=
        fun d hd => hblanks d (List.mem_reverse.1 hd)
      rw [List.cons_append, hread]
      refine ⟨rfl, ?_⟩
      rw [← List.cons_append, List.reverse_append, List.dropWhile_append_of_pos hfirst]
  | case4 =>
      rw [List.nil_append, ← List.append_nil blanks, readDimensions_blanks_append hblanks]
      exact ⟨rfl, rfl⟩

/-- Blanks around a text do not count. -/
theorem parse_blanks {before after : String} (hbefore : isBlankText before = true)
    (hafter : isBlankText after = true) (text : String) :
    parse (before ++ text ++ after) = parse text := by
  rw [isBlankText_iff] at hbefore hafter
  have hfirst : ∀ c ∈ after.toList.reverse, isBlank c = true :=
    fun c hc => hafter c (List.mem_reverse.1 hc)
  have hlast : ∀ c ∈ before.toList.reverse, isBlank c = true :=
    fun c hc => hbefore c (List.mem_reverse.1 hc)
  obtain ⟨hdimensions, hname⟩ := readDimensions_append_blanks hlast text.toList.reverse
  simp only [parse, String.toList_append, List.reverse_append,
    readDimensions_blanks_append hfirst, hdimensions, hname]

/-! ## Spelling -/

/-- What a text spells. But for the blanks around it, it is the written form of a plain type, or
it has a pair of brackets behind the text of the elements of an array. -/
inductive Spells : String → JavaType → Prop
  | plain {text : String} {t : JavaType} (plain : t.Plain) (trims : Trims text t.render) :
      Spells text t
  | array {text inner : String} {element : JavaType} (trims : Trims text (inner ++ "[]"))
      (spells : Spells inner element) : Spells text (.array element)

variable {text : String} {t : JavaType}

theorem Plain.legible (h : t.Plain) : t.Legible := by
  cases t with
  | array element => exact h.elim
  | _ => exact legible_iff.2 h

theorem parse_of_trims {inner : String} (h : Trims text inner) : parse text = parse inner := by
  obtain ⟨before, after, hbefore, hafter, rfl⟩ := h.around
  exact parse_blanks hbefore hafter inner

theorem Spells.parse_eq (h : Spells text t) : parse text = t := by
  induction h with
  | plain plain trims => rw [parse_of_trims trims, plain.legible.parse_render]
  | array trims _ ih => rw [parse_of_trims trims, parse_brackets, ih]

theorem innermost_ofName (name : String) : (ofName name).innermost = ofName name := by
  unfold ofName
  split <;> rfl

/-- A text that does not end in brackets spells the type that it names. -/
theorem spells_ofName (hbrackets : ¬ ['[', ']'] <:+ (trim text).toList) :
    Spells text (ofName (trim text)) := by
  have htrim : trimChars (trim text).toList = (trim text).toList := by
    rw [← String.toList_ofList (l := trimChars (trim text).toList)]
    exact congrArg String.toList (trim_trim text)
  have hplain := legible_iff.1 (legible_ofName htrim hbrackets)
  rw [innermost_ofName] at hplain
  refine .plain hplain ?_
  rw [render_ofName]
  exact trims_trim text

/-- Every text spells a type, since each pair of brackets leaves a shorter text. -/
theorem exists_spells (text : String) : ∃ t, Spells text t := by
  induction hlength : text.length using Nat.strong_induction_on generalizing text with
  | _ n ih =>
    by_cases hbrackets : ['[', ']'] <:+ (trim text).toList
    · obtain ⟨cs, hcs⟩ := hbrackets
      have htrims : Trims text (String.ofList cs ++ "[]") := by
        rw [trims_iff, ← String.toList_inj, ← hcs]
        simp
      have hshorter : (String.ofList cs).length < n := by
        obtain ⟨before, after, -, -, htext⟩ := htrims.around
        have htwo : "[]".length = 2 := rfl
        rw [← hlength, htext]
        simp only [String.length_append]
        omega
      obtain ⟨t, ht⟩ := ih _ hshorter _ rfl
      exact ⟨.array t, .array htrims ht⟩
    · exact ⟨_, spells_ofName hbrackets⟩

theorem spells_iff : Spells text t ↔ parse text = t := by
  constructor
  · exact Spells.parse_eq
  · rintro rfl
    obtain ⟨t, ht⟩ := exists_spells text
    rwa [ht.parse_eq]

end JavaType

/-- **Types come back exactly if their innermost type is plain.** Every text spells one type,
and this is the type that is read. A type of any dimensions is read from its written form exactly
if its innermost type is plain. All types that were read are of this kind, so they come back.
Blanks around a text and before brackets do not count, at any level. -/
theorem types_come_back_exactly :
    (∀ text, ∃! t, JavaType.Spells text t) ∧
    (∀ text t, JavaType.parse text = t ↔ JavaType.Spells text t) ∧
    (∀ t : JavaType, JavaType.parse t.render = t ↔ t.innermost.Plain) ∧
    (∀ text, (JavaType.parse text).innermost.Plain ∧
      JavaType.parse (JavaType.parse text).render = JavaType.parse text) ∧
    ∀ text before after, isBlankText before = true → isBlankText after = true →
      JavaType.parse (before ++ text ++ after ++ "[]") = .array (JavaType.parse text) := by
  refine ⟨fun text => ?_, fun text t => JavaType.spells_iff.symm, fun t => ?_, fun text => ?_,
    fun text before after hbefore hafter => ?_⟩
  · obtain ⟨t, ht⟩ := JavaType.exists_spells text
    exact ⟨t, ht, fun u hu => hu.parse_eq.symm.trans ht.parse_eq⟩
  · rw [← JavaType.legible_iff]
    exact ⟨fun h => h ▸ JavaType.legible_parse t.render, fun h => h.parse_render⟩
  · have hlegible := JavaType.legible_parse text
    exact ⟨JavaType.legible_iff.1 hlegible, hlegible.parse_render⟩
  · rw [JavaType.parse_brackets, JavaType.parse_blanks hbefore hafter]

namespace Sample

/-- A text with blanks before both pairs of brackets and around a reserved name is read as an
array that comes back, and an array of a class with a reserved name does not. -/
theorem spaced_array_comes_back :
    JavaType.parse (" int\u00a0[]" ++ "\t" ++ "[]") = .array (.array (.primitive .int)) ∧
      JavaType.parse (JavaType.array (.array (.primitive .int))).render =
        .array (.array (.primitive .int)) ∧
      ¬ JavaType.parse (JavaType.array (.class "int")).render = .array (.class "int") := by
  obtain ⟨-, -, hexact, -, hblanks⟩ := types_come_back_exactly
  have hinner : JavaType.parse " int\u00a0[]" = .array (.primitive .int) := by decide +kernel
  have hreserved : ¬ (JavaType.class "int").Plain := fun h => h.2.2 (by decide +kernel)
  refine ⟨?_, (hexact _).2 trivial, fun h => hreserved ((hexact _).1 h)⟩
  have houter := hblanks " int\u00a0[]" "" "\t" rfl rfl
  rwa [String.empty_append, hinner] at houter

end Sample

end TaintReplay
