import Mathlib.Data.List.Forall2
import TaintReplay.Proofs.WrittenForms
import TaintReplay.Signature.Method

/-!
# The grammar of method signatures

A text is a method signature if, but for the blanks around it, it is written as the grammar
says: the class between an angle bracket and a colon, blanks, the return type, blanks, the name
up to a parenthesis, and the parameters up to the closing parenthesis and bracket. A `Layout` is
such a text in its parts. The parts overlap in the signs they may have: a return type may have
colons, parentheses and brackets, a name may have brackets, and parameters may have all but a
closing parenthesis. Still there is one way to take a text apart only, since no part may have
the sign that follows it (`MethodSignature.Layout.eq_of_render_eq`). So reading each part as far
as it goes finds the layout if there is one.

## Main results

* `Text.trims_iff`: trimming drops the blanks at both ends and no more.
* `MethodSignature.lists_iff`: which types a list of parameters names.
* `MethodSignature.read?_eq_some_iff`: what is read are the texts with a layout.
* `signatures_are_read_by_their_grammar`: reading by layouts, with the errors.
-/

namespace TaintReplay

open Text

namespace Text

variable {test : Char → Bool} {cs : List Char} {outer inner : String}

/-! ## Runs -/

/-- Where two runs are followed by signs outside their class, they can be told apart from what
follows. -/
theorem IsRun.eq_of_append_eq {a b : String} {rest rest' : List Char} (ha : IsRun test a)
    (hb : IsRun test b) (hstop : Stops test rest) (hstop' : Stops test rest')
    (h : a.toList ++ rest = b.toList ++ rest') : a = b ∧ rest = rest' := by
  have hread := ha.takeRun_of_stops hstop
  rw [h, hb.takeRun_of_stops hstop', Option.some.injEq, Prod.mk.injEq] at hread
  exact ⟨String.toList_inj.1 hread.1.symm, hread.2.symm⟩

/-! ## Trimming -/

/-- The inner text is what is left of the outer one without the blanks at its ends. -/
structure Trims (outer inner : String) : Prop where
  around : ∃ before after, isBlankText before = true ∧ isBlankText after = true ∧
    outer = before ++ inner ++ after
  first : Stops isBlank inner.toList
  last : Stops isBlank inner.toList.reverse

theorem isBlankText_iff {text : String} :
    isBlankText text = true ↔ ∀ c ∈ text.toList, isBlank c = true := List.all_eq_true

theorem stops_dropWhile (test : Char → Bool) (cs : List Char) : Stops test (cs.dropWhile test) := by
  intro c hc
  have hhead := List.head?_dropWhile_not test cs
  rw [Option.mem_def.1 hc] at hhead
  exact hhead

theorem Stops.of_append {rest : List Char} (h : Stops test (cs ++ rest)) : Stops test cs := by
  intro c hc
  refine h c ?_
  rw [Option.mem_def, List.head?_append, Option.mem_def.1 hc]
  rfl

/-- A trimmed text does not end in a blank. -/
theorem stops_reverse_trimChars (cs : List Char) : Stops isBlank (trimChars cs).reverse := by
  rw [trimChars, trimEnd, List.reverse_reverse]
  exact stops_dropWhile isBlank _

/-- Blanks are trimmed at both ends of a text, up to signs that are not blank. -/
theorem trimChars_of_stops {before after : List Char} (hbefore : ∀ c ∈ before, isBlank c = true)
    (hafter : ∀ c ∈ after, isBlank c = true) (hfirst : Stops isBlank cs)
    (hlast : Stops isBlank cs.reverse) : trimChars (before ++ cs ++ after) = cs := by
  rw [trimChars, List.append_assoc, List.dropWhile_append_of_pos hbefore]
  cases cs with
  | nil =>
      have hnone : after.dropWhile isBlank = [] := List.dropWhile_eq_nil_iff.2 hafter
      rw [List.nil_append, hnone]
      rfl
  | cons c rest =>
      have hstop : Stops isBlank (c :: rest ++ after) := stops_cons (hfirst c rfl) _
      have hblank : ∀ d ∈ after.reverse, isBlank d = true :=
        fun d hd => hafter d (List.mem_reverse.1 hd)
      rw [hstop.dropWhile_eq, trimEnd, List.reverse_append, List.dropWhile_append_of_pos hblank,
        hlast.dropWhile_eq, List.reverse_reverse]

/-- Trimming drops blanks at both ends only, and all of them. -/
theorem trims_trim (text : String) : Trims text (trim text) := by
  let rest := text.toList.dropWhile isBlank
  have hend : trimChars text.toList ++ (rest.reverse.takeWhile isBlank).reverse = rest := by
    rw [trimChars, trimEnd, ← List.reverse_append, List.takeWhile_append_dropWhile,
      List.reverse_reverse]
  refine ⟨⟨String.ofList (text.toList.takeWhile isBlank),
    String.ofList (rest.reverse.takeWhile isBlank).reverse, ?_, ?_, ?_⟩, ?_, ?_⟩
  · rw [isBlankText_iff, String.toList_ofList]
    exact fun c => List.mem_takeWhile_imp
  · rw [isBlankText_iff, String.toList_ofList]
    exact fun c hc => List.mem_takeWhile_imp (List.mem_reverse.1 hc)
  · rw [← String.toList_inj]
    simp only [trim, String.toList_append, String.toList_ofList, List.append_assoc, hend]
    exact List.takeWhile_append_dropWhile.symm
  · rw [trim, String.toList_ofList]
    have hstop : Stops isBlank rest := stops_dropWhile isBlank text.toList
    rw [← hend] at hstop
    exact hstop.of_append
  · rw [trim, String.toList_ofList]
    exact stops_reverse_trimChars _

theorem trims_iff : Trims outer inner ↔ trim outer = inner := by
  constructor
  · rintro ⟨⟨before, after, hbefore, hafter, rfl⟩, hfirst, hlast⟩
    rw [isBlankText_iff] at hbefore hafter
    rw [trim, ← String.toList_inj, String.toList_ofList, String.toList_append, String.toList_append]
    exact trimChars_of_stops hbefore hafter hfirst hlast
  · rintro rfl
    exact trims_trim outer

/-- The same, for the signs of the texts. -/
theorem trims_iff_toList : Trims outer inner ↔ inner.toList = trimChars outer.toList := by
  rw [trims_iff, trim, eq_comm, ← String.toList_inj, String.toList_ofList]

theorem trim_eq_self_iff {text : String} :
    trim text = text ↔ Stops isBlank text.toList ∧ Stops isBlank text.toList.reverse := by
  rw [← trims_iff]
  constructor
  · exact fun h => ⟨h.first, h.last⟩
  · rintro ⟨hfirst, hlast⟩
    exact ⟨⟨"", "", rfl, rfl, by simp⟩, hfirst, hlast⟩

/-- What was trimmed has no blanks at its ends. -/
theorem trim_trim (text : String) : trim (trim text) = trim text :=
  trim_eq_self_iff.2 ⟨(trims_trim text).first, (trims_trim text).last⟩

/-- Trimming leaves signs that are not blank. -/
theorem trimChars_ne_nil {cs : List Char} {c : Char} (hc : c ∈ cs) (hblank : isBlank c = false) :
    trimChars cs ≠ [] := by
  intro h
  rw [trimChars, trimEnd, List.reverse_eq_nil_iff, List.dropWhile_eq_nil_iff] at h
  rw [← List.takeWhile_append_dropWhile (p := isBlank) (l := cs), List.mem_append] at hc
  have hall : isBlank c = true := by
    rcases hc with hfirst | hrest
    · exact List.all_eq_true.1 List.all_takeWhile c hfirst
    · exact h c (List.mem_reverse.2 hrest)
  rw [hblank] at hall
  cases hall

/-! ## Cutting -/

/-- The parts of a text make up the text. -/
theorem intercalate_splitAt (sep : Char) (cs : List Char) :
    [sep].intercalate (splitAt sep cs) = cs := by
  induction cs with
  | nil => rfl
  | cons c cs ih =>
      rw [splitAt]
      cases hparts : splitAt sep cs with
      | nil => exact absurd hparts (splitAt_ne_nil sep cs)
      | cons part parts =>
          rw [hparts] at ih
          split
          · rename_i hc
            subst hc
            rw [List.intercalate_cons_cons, ih]
            rfl
          · cases parts with
            | nil => simpa using ih
            | cons next parts =>
                rw [List.intercalate_cons_cons] at ih ⊢
                rw [List.cons_append, List.cons_append, ih]

/-- No part of a text has the sign that it was cut at. -/
theorem not_mem_of_mem_splitAt {sep : Char} {cs part : List Char} (h : part ∈ splitAt sep cs) :
    sep ∉ part := by
  induction cs generalizing part with
  | nil =>
      rw [splitAt, List.mem_singleton] at h
      simp [h]
  | cons c cs ih =>
      rw [splitAt] at h
      split at h
      · rcases List.mem_cons.1 h with rfl | h
        · simp
        · exact ih h
      · rename_i hc
        split at h
        · rw [List.mem_singleton.1 h, List.mem_singleton]
          exact fun hsep => hc hsep.symm
        · rename_i first parts hparts
          rcases List.mem_cons.1 h with rfl | h
          · have hfirst : sep ∉ first := ih (hparts ▸ List.mem_cons_self)
            rw [List.mem_cons]
            exact fun hsep => hsep.elim (fun heq => hc heq.symm) hfirst
          · exact ih (hparts ▸ List.mem_cons_of_mem _ h)

/-- Parts without the sign between them are found by cutting the text at the sign. -/
theorem splitAt_intercalate {sep : Char} {parts : List (List Char)} (hne : parts ≠ [])
    (hfree : ∀ part ∈ parts, sep ∉ part) : splitAt sep ([sep].intercalate parts) = parts := by
  have hcut := List.splitOn_intercalate sep (fun _ => not_mem_of_mem_splitAt)
    (splitAt_ne_nil sep ([sep].intercalate parts))
  rw [intercalate_splitAt] at hcut
  exact hcut.symm.trans (List.splitOn_intercalate sep hfree hne)

end Text

/-! ## Parameters -/

namespace MethodSignature

/-- The list between the parentheses of a signature names types: none if it is blank, and else
the parts between its commas, without the blanks around the list and around each part. -/
inductive Lists (list : String) : List String → Prop
  | none (blank : isBlankText list = true) : Lists list []
  | parts {inner : String} {parts types : List String} (filled : isBlankText list = false)
      (trims : Trims list inner) (nonempty : parts ≠ []) (joined : ",".intercalate parts = inner)
      (free : ∀ part ∈ parts, ',' ∉ part.toList) (each : List.Forall₂ Trims parts types) :
      Lists list types

theorem forall₂_trims_iff {parts types : List String} :
    List.Forall₂ Trims parts types ↔ parts.map trim = types := by
  have htrims : Trims = fun outer inner => trim outer = inner :=
    funext fun outer => funext fun inner => propext trims_iff
  rw [htrims, ← List.forall₂_map_left_iff (R := Eq), List.forall₂_eq_eq_eq]

theorem readParameters_of_blank {list : String} (hblank : isBlankText list = true) :
    readParameters list.toList = [] := by
  rw [isBlankText_iff] at hblank
  have hnone : trimChars list.toList = [] := by
    rw [trimChars, List.dropWhile_eq_nil_iff.2 hblank]
    rfl
  rw [readParameters, hnone]

theorem readParameters_of_filled {list : String} (hfilled : isBlankText list = false) :
    readParameters list.toList =
      ((splitAt ',' (trim list).toList).map String.ofList).map trim := by
  obtain ⟨c, hc, hsign⟩ := List.all_eq_false.1 hfilled
  have hne := trimChars_ne_nil hc (Bool.eq_false_iff.2 hsign)
  rw [List.map_map, trim, String.toList_ofList]
  unfold readParameters
  split
  · rename_i hnil
    exact absurd hnil hne
  · refine List.map_congr_left fun part _ => ?_
    rw [Function.comp_apply, trim, String.toList_ofList]

/-- Parameters are read as the list names them. -/
theorem lists_iff {list : String} {types : List String} :
    Lists list types ↔ readParameters list.toList = types := by
  have hjoin : ∀ parts : List String,
      (",".intercalate parts).toList = [','].intercalate (parts.map String.toList) :=
    fun _ => String.toList_intercalate
  have hback : ∀ parts : List (List Char), (parts.map String.ofList).map String.toList = parts := by
    intro parts
    simp [Function.comp_def]
  constructor
  · intro hlists
    cases hlists with
    | none blank => exact readParameters_of_blank blank
    | parts filled trims nonempty joined free each =>
        rename_i inner parts
        have hfree : ∀ part ∈ parts.map String.toList, ',' ∉ part := by
          simpa using free
        rw [readParameters_of_filled filled, trims_iff.1 trims, ← joined, hjoin,
          splitAt_intercalate (by simpa using nonempty) hfree, ← forall₂_trims_iff.1 each]
        simp [Function.comp_def]
  · rintro rfl
    cases hblank : isBlankText list with
    | true =>
        rw [readParameters_of_blank hblank]
        exact .none hblank
    | false =>
        rw [readParameters_of_filled hblank]
        refine .parts hblank (trims_trim list) ?_ ?_ ?_ (forall₂_trims_iff.2 rfl)
        · simpa using splitAt_ne_nil ',' (trim list).toList
        · rw [← String.toList_inj, hjoin, hback, intercalate_splitAt]
        · intro part hpart
          obtain ⟨cs, hcs, rfl⟩ := List.mem_map.1 hpart
          rw [String.toList_ofList]
          exact not_mem_of_mem_splitAt hcs

/-! ## Layouts -/

/-- A text in the form of a method signature, in its parts. -/
@[ext]
structure Layout where
  className : String
  /-- The blanks after the colon. -/
  afterColon : String
  returnType : String
  /-- The blanks between return type and name. -/
  beforeName : String
  name : String
  /-- What stands between the parentheses. -/
  parameters : String
  isRun_className : IsRun (fun c => c != ':' && !isBlank c) className
  isRun_afterColon : IsRun isBlank afterColon
  isRun_returnType : IsRun (fun c => !isBlank c) returnType
  isRun_beforeName : IsRun isBlank beforeName
  isRun_name : IsRun (fun c => c != '(' && !isBlank c) name
  open_parameters : ')' ∉ parameters.toList

namespace Layout

/-- The text of a layout. -/
def render (l : Layout) : String :=
  "<" ++ l.className ++ ":" ++ l.afterColon ++ l.returnType ++ l.beforeName ++ l.name ++ "(" ++
    l.parameters ++ ")>"

/-- The signature has the class, the return type and the name of the layout and the types that
its list of parameters names. -/
structure Denotes (l : Layout) (m : MethodSignature) : Prop where
  className : m.className = l.className
  returnType : m.returnType = l.returnType
  name : m.name = l.name
  parameters : Lists l.parameters m.parameters

theorem toList_render (l : Layout) :
    l.render.toList = '<' :: (l.className.toList ++ ':' :: (l.afterColon.toList ++
      (l.returnType.toList ++ (l.beforeName.toList ++ (l.name.toList ++
        '(' :: (l.parameters.toList ++ [')', '>'])))))) := by
  simp [render]

/-! Each part is followed by a sign that it cannot have. -/

theorem stops_afterColon (l : Layout) (rest : List Char) :
    Stops isBlank (l.returnType.toList ++ rest) := l.isRun_returnType.stops (by simp) rest

theorem stops_returnType (l : Layout) (rest : List Char) :
    Stops (fun c => !isBlank c) (l.beforeName.toList ++ rest) :=
  l.isRun_beforeName.stops (by simp) rest

theorem stops_beforeName (l : Layout) (rest : List Char) :
    Stops isBlank (l.name.toList ++ rest) := l.isRun_name.stops (by simp) rest

/-- A text can be taken apart in one way only. -/
theorem eq_of_render_eq {l k : Layout} (h : l.render = k.render) : l = k := by
  have htext := congrArg String.toList h
  rw [toList_render, toList_render] at htext
  obtain ⟨hclass, htext⟩ := l.isRun_className.eq_of_append_eq k.isRun_className
    (stops_cons rfl _) (stops_cons rfl _) (List.cons.inj htext).2
  obtain ⟨hafter, htext⟩ := l.isRun_afterColon.eq_of_append_eq k.isRun_afterColon
    (l.stops_afterColon _) (k.stops_afterColon _) (List.cons.inj htext).2
  obtain ⟨hreturn, htext⟩ := l.isRun_returnType.eq_of_append_eq k.isRun_returnType
    (l.stops_returnType _) (k.stops_returnType _) htext
  obtain ⟨hbefore, htext⟩ := l.isRun_beforeName.eq_of_append_eq k.isRun_beforeName
    (l.stops_beforeName _) (k.stops_beforeName _) htext
  obtain ⟨hname, htext⟩ := l.isRun_name.eq_of_append_eq k.isRun_name
    (stops_cons rfl _) (stops_cons rfl _) htext
  have hparameters := List.append_cancel_right (List.cons.inj htext).2
  exact Layout.ext hclass hafter hreturn hbefore hname (String.toList_inj.1 hparameters)

/-- The signature that is read from the text of a layout. -/
def signature (l : Layout) : MethodSignature :=
  ⟨l.className, l.returnType, l.name, readParameters l.parameters.toList⟩

theorem denotes_iff {l : Layout} {m : MethodSignature} : l.Denotes m ↔ l.signature = m := by
  constructor
  · rintro ⟨hclass, hreturn, hname, hparameters⟩
    cases m
    simp_all [signature, lists_iff]
  · rintro rfl
    exact ⟨rfl, rfl, rfl, lists_iff.2 rfl⟩

/-- The list of parameters goes up to the closing parenthesis. -/
theorem takeWhile_parameters (l : Layout) :
    (l.parameters.toList ++ [')', '>']).takeWhile (· != ')') = l.parameters.toList ∧
      (l.parameters.toList ++ [')', '>']).dropWhile (· != ')') = [')', '>'] := by
  have hopen : ∀ c ∈ l.parameters.toList, (c != ')') = true := by
    intro c hc
    exact bne_iff_ne.2 fun heq => l.open_parameters (heq ▸ hc)
  constructor
  · rw [List.takeWhile_append_of_pos hopen]
    exact List.append_nil _
  · rw [List.dropWhile_append_of_pos hopen]
    rfl

/-- The text of a layout is read as its signature. -/
theorem read?_render (l : Layout) : read? l.render.toList = some l.signature := by
  obtain ⟨htake, hdrop⟩ := l.takeWhile_parameters
  rw [toList_render]
  simp only [read?, expect, if_pos, Option.bind_eq_bind, Option.bind_some,
    l.isRun_className.takeRun_append ':' rfl,
    l.isRun_afterColon.takeRun_of_stops (l.stops_afterColon _),
    l.isRun_returnType.takeRun_of_stops (l.stops_returnType _),
    l.isRun_beforeName.takeRun_of_stops (l.stops_beforeName _),
    l.isRun_name.takeRun_append '(' rfl, htake, hdrop, String.ofList_toList, signature]

end Layout

/-- What is read is the text of a layout. -/
theorem exists_layout_of_read? {cs : List Char} {m : MethodSignature} (h : read? cs = some m) :
    ∃ l : Layout, l.render.toList = cs ∧ l.signature = m := by
  unfold read? at h
  obtain ⟨opened, hopened, h⟩ := Option.bind_eq_some_iff.1 h
  obtain ⟨⟨cls, afterClass⟩, hcls, h⟩ := Option.bind_eq_some_iff.1 h
  obtain ⟨colon, hcolon, h⟩ := Option.bind_eq_some_iff.1 h
  obtain ⟨⟨space, afterSpace⟩, hspace, h⟩ := Option.bind_eq_some_iff.1 h
  obtain ⟨⟨ret, afterReturn⟩, hret, h⟩ := Option.bind_eq_some_iff.1 h
  obtain ⟨⟨space', afterSpace'⟩, hspace', h⟩ := Option.bind_eq_some_iff.1 h
  obtain ⟨⟨name, afterName⟩, hname, h⟩ := Option.bind_eq_some_iff.1 h
  obtain ⟨list, hlist, h⟩ := Option.bind_eq_some_iff.1 h
  dsimp only at hcolon hspace hret hspace' hname hlist h
  split at h
  · rename_i hclosed
    cases h
    refine ⟨⟨String.ofList cls, String.ofList space, String.ofList ret, String.ofList space',
      String.ofList name, String.ofList (list.takeWhile (· != ')')), isRun_of_takeRun hcls,
      isRun_of_takeRun hspace, isRun_of_takeRun hret, isRun_of_takeRun hspace',
      isRun_of_takeRun hname, ?_⟩, ?_, ?_⟩
    · rw [String.toList_ofList]
      intro hclose
      simpa using List.mem_takeWhile_imp hclose
    · simp only [Layout.toList_render, String.toList_ofList, ← hclosed,
        List.takeWhile_append_dropWhile]
      rw [← expect_eq_some_iff.1 hlist, (takeRun_eq_some hname).1, (takeRun_eq_some hspace').1,
        (takeRun_eq_some hret).1, (takeRun_eq_some hspace).1, ← expect_eq_some_iff.1 hcolon,
        (takeRun_eq_some hcls).1, ← expect_eq_some_iff.1 hopened]
    · simp only [Layout.signature, String.toList_ofList]
  · cases h

theorem read?_eq_some_iff {cs : List Char} {m : MethodSignature} :
    read? cs = some m ↔ ∃ l : Layout, l.render.toList = cs ∧ l.Denotes m := by
  constructor
  · intro h
    obtain ⟨l, hl, hm⟩ := exists_layout_of_read? h
    exact ⟨l, hl, Layout.denotes_iff.2 hm⟩
  · rintro ⟨l, rfl, hm⟩
    rw [l.read?_render, Layout.denotes_iff.1 hm]

theorem parse_eq_ok_iff {text : String} {m : MethodSignature} :
    parse text = .ok m ↔ read? (trimChars text.toList) = some m := by
  rw [parse]
  cases read? (trimChars text.toList) <;> simp

theorem parse_eq_error_iff {text : String} {e : SignatureError} :
    parse text = .error e ↔ read? (trimChars text.toList) = none ∧ e = .invalidMethod text := by
  rw [parse]
  cases read? (trimChars text.toList) <;> simp [eq_comm]

end MethodSignature

/-- **Signatures are read by their grammar.** A text is read as a method signature exactly if,
trimmed, it is the text of a layout, and what is read is what the layout denotes. There is one
layout at most. A text without layout is refused with an error that has it as it was given. -/
theorem signatures_are_read_by_their_grammar (text : String) :
    (∀ m, MethodSignature.parse text = .ok m ↔
      ∃ l : MethodSignature.Layout, Trims text l.render ∧ l.Denotes m) ∧
    (∀ l k : MethodSignature.Layout, Trims text l.render → Trims text k.render → l = k) ∧
    ∀ e, MethodSignature.parse text = .error e ↔
      (∀ l : MethodSignature.Layout, ¬ Trims text l.render) ∧ e = .invalidMethod text := by
  refine ⟨fun m => ?_, fun l k hl hk => ?_, fun e => ?_⟩
  · rw [MethodSignature.parse_eq_ok_iff, MethodSignature.read?_eq_some_iff]
    simp only [trims_iff_toList]
  · exact MethodSignature.Layout.eq_of_render_eq ((trims_iff.1 hl).symm.trans (trims_iff.1 hk))
  · rw [MethodSignature.parse_eq_error_iff]
    refine and_congr_left fun _ => ?_
    simp only [trims_iff_toList]
    constructor
    · intro hnone l hl
      rw [← hl, l.read?_render] at hnone
      cases hnone
    · intro hall
      refine Option.eq_none_iff_forall_not_mem.2 fun m hm => ?_
      obtain ⟨l, hl, -⟩ := MethodSignature.exists_layout_of_read? hm
      exact hall l hl

namespace Sample

/-- A signature with signs of other parts in its return type and name, other blanks than spaces,
and a line break and missing types among its parameters. -/
def oddLayout : MethodSignature.Layout where
  className := "a.B"
  afterColon := "\u00a0"
  returnType := "x:(>"
  beforeName := "\u2003\t"
  name := "<init>"
  parameters := " int ,\n , "
  isRun_className := by decide +kernel
  isRun_afterColon := by decide +kernel
  isRun_returnType := by decide +kernel
  isRun_beforeName := by decide +kernel
  isRun_name := by decide +kernel
  open_parameters := by decide +kernel

/-- The odd signature is read from its text with blanks around it, and a text without return
type is refused. -/
theorem oddLayout_read :
    Trims ("\u3000" ++ oddLayout.render ++ "\n") oddLayout.render ∧
      MethodSignature.parse ("\u3000" ++ oddLayout.render ++ "\n") =
        .ok ⟨"a.B", "x:(>", "<init>", ["int", "", ""]⟩ ∧
      ∀ l : MethodSignature.Layout, ¬ Trims " <a.B: f()>" l.render := by
  have htrims : Trims ("\u3000" ++ oddLayout.render ++ "\n") oddLayout.render :=
    trims_iff.2 (by decide +kernel)
  have hdenotes : oddLayout.Denotes ⟨"a.B", "x:(>", "<init>", ["int", "", ""]⟩ :=
    MethodSignature.Layout.denotes_iff.2 (by decide +kernel)
  have hrefused : MethodSignature.parse " <a.B: f()>" = .error (.invalidMethod " <a.B: f()>") :=
    MethodSignature.parse_eq_error_iff.2 ⟨by decide +kernel, rfl⟩
  exact ⟨htrims, ((signatures_are_read_by_their_grammar _).1 _).2 ⟨_, htrims, hdenotes⟩,
    (((signatures_are_read_by_their_grammar _).2.2 _).1 hrefused).1⟩

end Sample

end TaintReplay
