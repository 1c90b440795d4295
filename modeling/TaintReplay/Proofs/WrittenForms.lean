import Mathlib.Data.List.DropRight
import TaintReplay.JavaType
import TaintReplay.Signature.Field

/-!
# Reading what was written

Types and field signatures go through text: they are written into a taint and read from it
again. Not every value survives this. A class whose name ends in brackets is read as an array,
and a field whose name has a blank in it is not read at all. What was read once is *legible*:
no part of it has a sign that would end the part in the written form, so it is read again as
what it is.

The texts that are read as a field signature have its parts in their order, with blanks of any
number and kind where there is one in the written form. A `FieldSignature.Layout` is such a text.

## Main results

* `FieldSignature.Layout.read?_render`, `FieldSignature.exists_layout_of_read?`: the texts of
  layouts are read, and no others.
* `FieldSignature.legible_of_parse`, `JavaType.legible_parse`: what was read is legible.
* `FieldSignature.Legible.parse_render`, `JavaType.Legible.parse_render`: what is legible is read
  from its written form.
-/

namespace TaintReplay

open Text

namespace Text

variable {test : Char → Bool}

theorem expect_eq_some_iff {sign : Char} {cs rest : List Char} :
    expect sign cs = some rest ↔ cs = sign :: rest := by
  cases cs with
  | nil => simp [expect]
  | cons c cs => by_cases hc : c = sign <;> simp [expect, hc]

/-- The text is a run of signs of a class, so it is not empty. -/
def IsRun (test : Char → Bool) (text : String) : Prop :=
  text.toList ≠ [] ∧ ∀ c ∈ text.toList, test c = true

instance {text : String} : Decidable (IsRun test text) :=
  decidable_of_iff ((!text.toList.isEmpty && text.toList.all test) = true) (by simp [IsRun])

theorem isRun_space : IsRun isBlank " " := by decide +kernel

theorem isRun_of_takeRun {cs run rest : List Char} (h : takeRun test cs = some (run, rest)) :
    IsRun test (String.ofList run) := by
  obtain ⟨-, hne, hall⟩ := takeRun_eq_some h
  rw [IsRun, String.toList_ofList]
  exact ⟨hne, List.all_eq_true.1 hall⟩

/-- The text does not go on with a sign of the class. -/
def Stops (test : Char → Bool) (cs : List Char) : Prop := ∀ c ∈ cs.head?, test c = false

theorem stops_cons {sign : Char} (hsign : test sign = false) (rest : List Char) :
    Stops test (sign :: rest) := by
  intro c hc
  rw [List.head?_cons, Option.mem_some_iff] at hc
  exact hc ▸ hsign

theorem Stops.takeWhile_eq {cs : List Char} (h : Stops test cs) : cs.takeWhile test = [] := by
  cases cs with
  | nil => rfl
  | cons c cs => exact List.takeWhile_cons_of_neg (Bool.eq_false_iff.1 (h c rfl))

theorem Stops.dropWhile_eq {cs : List Char} (h : Stops test cs) : cs.dropWhile test = cs := by
  have hall := List.takeWhile_append_dropWhile (p := test) (l := cs)
  rwa [h.takeWhile_eq, List.nil_append] at hall

/-- A run of other signs does not go on with a sign of the class. -/
theorem IsRun.stops {other : Char → Bool} {text : String} (h : IsRun other text)
    (hother : ∀ c, other c = true → test c = false) (rest : List Char) :
    Stops test (text.toList ++ rest) := by
  obtain ⟨c, cs, hcs⟩ := List.exists_cons_of_ne_nil h.1
  rw [hcs, List.cons_append]
  exact stops_cons (hother c (h.2 c (hcs ▸ List.mem_cons_self))) _

/-- A run is read up to where the text does not go on with it. -/
theorem IsRun.takeRun_of_stops {text : String} (h : IsRun test text) {rest : List Char}
    (hstop : Stops test rest) :
    takeRun test (text.toList ++ rest) = some (text.toList, rest) := by
  have htake : (text.toList ++ rest).takeWhile test = text.toList := by
    rw [List.takeWhile_append_of_pos h.2, hstop.takeWhile_eq, List.append_nil]
  have hdrop : (text.toList ++ rest).dropWhile test = rest := by
    rw [List.dropWhile_append_of_pos h.2, hstop.dropWhile_eq]
  have hne : text.toList.isEmpty = false := List.isEmpty_eq_false_iff.2 h.1
  rw [takeRun, htake, hdrop, hne]
  rfl

/-- A run is read up to the sign that ends it. -/
theorem IsRun.takeRun_append {text : String} (h : IsRun test text) (sign : Char)
    (hsign : test sign = false) (rest : List Char) :
    takeRun test (text.toList ++ sign :: rest) = some (text.toList, sign :: rest) :=
  h.takeRun_of_stops (stops_cons hsign rest)

/-- Nothing is trimmed exactly if there is no blank at either end. -/
theorem trimChars_eq_self_iff {cs : List Char} :
    trimChars cs = cs ↔
      cs.dropWhile isBlank = cs ∧ cs.reverse.dropWhile isBlank = cs.reverse := by
  constructor
  · intro h
    have hstart : cs.dropWhile isBlank = cs := by
      refine (List.dropWhile_suffix _).eq_of_length_le ?_
      have hlength := congrArg List.length h
      have hle := List.length_dropWhile_le isBlank (cs.dropWhile isBlank).reverse
      rw [trimChars, trimEnd, List.length_reverse] at hlength
      rw [List.length_reverse] at hle
      omega
    refine ⟨hstart, ?_⟩
    rw [trimChars, hstart, trimEnd] at h
    rw [← List.reverse_inj, h, List.reverse_reverse]
  · rintro ⟨hstart, hend⟩
    rw [trimChars, hstart, trimEnd, hend, List.reverse_reverse]

end Text

/-! ## Field signatures -/

namespace FieldSignature

/-- Each part of the signature is a run of signs that can stand in its place. -/
structure Legible (f : FieldSignature) : Prop where
  className : IsRun (fun c => c != ':' && !isBlank c) f.className
  type : IsRun (fun c => !isBlank c) f.type
  name : IsRun (fun c => c != '>' && !isBlank c) f.name

/-! ### Layouts -/

/-- A text in the form of a field signature: the signature with the blanks between its parts. -/
@[ext]
structure Layout where
  signature : FieldSignature
  /-- The blanks after the colon. -/
  afterColon : String
  /-- The blanks between type and name. -/
  beforeName : String
  legible : signature.Legible
  isRun_afterColon : IsRun isBlank afterColon
  isRun_beforeName : IsRun isBlank beforeName

namespace Layout

/-- The text of a layout. -/
def render (l : Layout) : String :=
  "<" ++ l.signature.className ++ ":" ++ l.afterColon ++ l.signature.type ++ l.beforeName ++
    l.signature.name ++ ">"

theorem toList_render (l : Layout) :
    l.render.toList = '<' :: (l.signature.className.toList ++ ':' :: (l.afterColon.toList ++
      (l.signature.type.toList ++ (l.beforeName.toList ++ (l.signature.name.toList ++ ['>']))))) := by
  simp [render]

/-! Each part is followed by a sign that it cannot have. -/

theorem stops_afterColon (l : Layout) (rest : List Char) :
    Stops isBlank (l.signature.type.toList ++ rest) := l.legible.type.stops (by simp) rest

theorem stops_type (l : Layout) (rest : List Char) :
    Stops (fun c => !isBlank c) (l.beforeName.toList ++ rest) :=
  l.isRun_beforeName.stops (by simp) rest

theorem stops_beforeName (l : Layout) (rest : List Char) :
    Stops isBlank (l.signature.name.toList ++ rest) := l.legible.name.stops (by simp) rest

/-- The text of a layout is read as its signature. -/
theorem read?_render (l : Layout) : read? l.render.toList = some l.signature := by
  rw [toList_render]
  simp only [read?, expect, if_pos, Option.bind_eq_bind, Option.bind_some,
    l.legible.className.takeRun_append ':' rfl,
    l.isRun_afterColon.takeRun_of_stops (l.stops_afterColon _),
    l.legible.type.takeRun_of_stops (l.stops_type _),
    l.isRun_beforeName.takeRun_of_stops (l.stops_beforeName _),
    l.legible.name.takeRun_append '>' rfl, String.ofList_toList]

end Layout

/-- What is read is the text of a layout. -/
theorem exists_layout_of_read? {cs : List Char} {f : FieldSignature} (h : read? cs = some f) :
    ∃ l : Layout, l.render.toList = cs ∧ l.signature = f := by
  unfold read? at h
  obtain ⟨opened, hopened, h⟩ := Option.bind_eq_some_iff.1 h
  obtain ⟨⟨cls, afterClass⟩, hcls, h⟩ := Option.bind_eq_some_iff.1 h
  obtain ⟨colon, hcolon, h⟩ := Option.bind_eq_some_iff.1 h
  obtain ⟨⟨space, afterSpace⟩, hspace, h⟩ := Option.bind_eq_some_iff.1 h
  obtain ⟨⟨type, afterType⟩, htype, h⟩ := Option.bind_eq_some_iff.1 h
  obtain ⟨⟨space', afterSpace'⟩, hspace', h⟩ := Option.bind_eq_some_iff.1 h
  obtain ⟨⟨name, afterName⟩, hname, h⟩ := Option.bind_eq_some_iff.1 h
  dsimp only at hcolon hspace htype hspace' hname h
  split at h
  · rename_i hclosed
    cases h
    have hlegible : Legible ⟨String.ofList cls, String.ofList type, String.ofList name⟩ :=
      ⟨isRun_of_takeRun hcls, isRun_of_takeRun htype, isRun_of_takeRun hname⟩
    refine ⟨⟨⟨String.ofList cls, String.ofList type, String.ofList name⟩, String.ofList space,
      String.ofList space', hlegible, isRun_of_takeRun hspace, isRun_of_takeRun hspace'⟩, ?_, rfl⟩
    simp only [Layout.toList_render, String.toList_ofList, ← hclosed]
    rw [(takeRun_eq_some hname).1, (takeRun_eq_some hspace').1, (takeRun_eq_some htype).1,
      (takeRun_eq_some hspace).1, ← expect_eq_some_iff.1 hcolon, (takeRun_eq_some hcls).1,
      ← expect_eq_some_iff.1 hopened]
  · cases h

theorem parse_eq_ok_iff {text : String} {f : FieldSignature} :
    parse text = .ok f ↔ read? (trimChars text.toList) = some f := by
  rw [parse]
  cases read? (trimChars text.toList) <;> simp

/-- Signatures that were read are legible. -/
theorem legible_of_parse {text : String} {f : FieldSignature} (h : parse text = .ok f) :
    f.Legible := by
  obtain ⟨l, -, rfl⟩ := exists_layout_of_read? (parse_eq_ok_iff.1 h)
  exact l.legible

/-! ### Written forms -/

theorem toList_render (f : FieldSignature) :
    f.render.toList = '<' :: (f.className.toList ++ ':' :: ' ' :: (f.type.toList ++
      ' ' :: (f.name.toList ++ ['>']))) := by
  simp [render]

/-- Nothing is trimmed of a written form, since it stands between brackets. -/
theorem trimChars_render (f : FieldSignature) :
    trimChars f.render.toList = f.render.toList := by
  rw [trimChars_eq_self_iff, toList_render]
  constructor
  · exact List.dropWhile_cons_of_neg (by decide)
  · simp only [List.reverse_cons, List.reverse_append, List.reverse_nil, List.nil_append,
      List.cons_append, List.append_assoc]
    exact List.dropWhile_cons_of_neg (by decide)

/-- The layout with a single blank in each place for blanks. -/
def Legible.layout {f : FieldSignature} (h : f.Legible) : Layout where
  signature := f
  afterColon := " "
  beforeName := " "
  legible := h
  isRun_afterColon := isRun_space
  isRun_beforeName := isRun_space

theorem Legible.render_layout {f : FieldSignature} (h : f.Legible) :
    h.layout.render = f.render := by
  rw [← String.toList_inj, Layout.toList_render, toList_render]
  simp [layout]

/-- A legible signature is read from its written form. -/
theorem Legible.parse_render {f : FieldSignature} (h : f.Legible) : parse f.render = .ok f := by
  have hread := h.layout.read?_render
  rw [h.render_layout] at hread
  rw [parse_eq_ok_iff, trimChars_render, hread]
  rfl

end FieldSignature

/-! ## Types -/

namespace JavaType

/-- The type can be told from its written form: if it is a class, or an array of a class, the
name of the class has no blanks around it and no brackets at its end, and is not that of
another type. -/
def Legible : JavaType → Prop
  | .class name =>
    trimChars name.toList = name.toList ∧ ¬ ['[', ']'] <:+ name.toList ∧ ofName name = .class name
  | .array element => element.Legible
  | .void => True
  | .primitive _ => True

/-! ### What was read -/

/-- What stands before the dimensions has neither a blank nor a dimension at its end. -/
theorem readDimensions_rest (cs : List Char) :
    (readDimensions cs).2.dropWhile isBlank = (readDimensions cs).2 ∧
      ¬ [']', '['] <+: (readDimensions cs).2 := by
  fun_induction readDimensions cs with
  | case1 cs n rest hrest ih =>
      rw [hrest] at ih
      exact ih
  | case2 c cs _ hblank ih => exact ih
  | case3 c cs hplain hblank =>
      refine ⟨List.dropWhile_cons_of_neg hblank, ?_⟩
      rintro ⟨rest, hrest⟩
      obtain ⟨rfl, rfl⟩ := List.cons.inj hrest
      exact hplain rest rfl rfl
  | case4 => exact ⟨rfl, by simp⟩

theorem legible_ofName {name : String} (htrim : trimChars name.toList = name.toList)
    (hplain : ¬ ['[', ']'] <:+ name.toList) : (ofName name).Legible := by
  by_cases hclass : ofName name = .class name
  · rw [hclass]
    exact ⟨htrim, hplain, hclass⟩
  · unfold ofName at hclass ⊢
    split at hclass <;> trivial

theorem legible_arrayOf {n : Nat} {t : JavaType} (h : t.Legible) : (arrayOf n t).Legible := by
  induction n with
  | zero => exact h
  | succ n ih => exact ih

/-- Types that were read are legible. -/
theorem legible_parse (text : String) : (parse text).Legible := by
  obtain ⟨hend, hplain⟩ := readDimensions_rest text.toList.reverse
  rw [parse]
  generalize readDimensions text.toList.reverse = read at hend hplain
  obtain ⟨n, rest⟩ := read
  have hsuffix := List.dropWhile_suffix isBlank (l := rest.reverse)
  refine legible_arrayOf (legible_ofName ?_ fun hbrackets => ?_)
  · rw [String.toList_ofList, trimChars_eq_self_iff]
    refine ⟨List.dropWhile_idempotent _ _, ?_⟩
    -- the name ends where the text before the dimensions does
    have hpre : (rest.reverse.dropWhile isBlank).reverse <+: rest := by
      rwa [← List.reverse_suffix, List.reverse_reverse]
    rw [List.dropWhile_eq_self_iff] at hend ⊢
    intro hpos
    rw [hpre.getElem hpos]
    exact hend _
  · rw [String.toList_ofList] at hbrackets
    exact hplain (List.reverse_suffix.1 (hbrackets.trans hsuffix))

/-! ### What is written -/

/-- A text without a blank or a dimension at its end has no dimensions. -/
theorem readDimensions_eq_zero {cs : List Char} (hend : cs.dropWhile isBlank = cs)
    (hplain : ¬ [']', '['] <+: cs) : readDimensions cs = (0, cs) := by
  fun_cases readDimensions cs with
  | case1 cs n rest hrest => exact absurd ⟨cs, rfl⟩ hplain
  | case2 c cs _ hblank =>
      exact absurd hblank (List.dropWhile_eq_self_iff.1 hend (Nat.zero_lt_succ _))
  | case3 c cs _ hblank => rfl
  | case4 => rfl

/-- Brackets behind the text of a type make the text of an array. -/
theorem parse_brackets (text : String) : parse (text ++ "[]") = array (parse text) := by
  have hreverse : (text ++ "[]").toList.reverse = ']' :: '[' :: text.toList.reverse := by simp
  rw [parse, hreverse]
  rfl

/-- A text without blanks around it and without brackets at its end is read as a name. -/
theorem parse_of_plain {name : String} (htrim : trimChars name.toList = name.toList)
    (hplain : ¬ ['[', ']'] <:+ name.toList) : parse name = ofName name := by
  obtain ⟨hstart, hend⟩ := trimChars_eq_self_iff.1 htrim
  have hbrackets : ¬ [']', '['] <+: name.toList.reverse :=
    fun hpre => hplain (List.reverse_prefix.1 hpre)
  simp only [parse, readDimensions_eq_zero hend hbrackets, List.reverse_reverse, hstart,
    String.ofList_toList, arrayOf]

/-- A legible type is read from its written form. -/
theorem Legible.parse_render {t : JavaType} (h : t.Legible) : parse t.render = t := by
  induction t with
  | void => decide +kernel
  | primitive p => cases p <;> decide +kernel
  | «class» name =>
      obtain ⟨htrim, hplain, hname⟩ := h
      rw [render, parse_of_plain htrim hplain, hname]
  | array element ih => rw [render, parse_brackets, ih h]

end JavaType

end TaintReplay
