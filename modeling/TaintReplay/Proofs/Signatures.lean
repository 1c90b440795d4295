import Mathlib.Data.List.TakeWhile
import TaintReplay.Proofs.Evolution
import TaintReplay.Proofs.BuiltPrograms
import TaintReplay.Proofs.SignatureGrammar
import TaintReplay.Proofs.Walks

/-!
# Signatures tell methods apart

Methods are looked up by text. A sub-signature is put behind the name of a class, and
the method whose signature is written like this is the one that is meant. Signatures
that were read have no sign in their parts that ends the part in the written form
(`MethodSignature.Legible`), so from the text the parts can be told. If the name of the
class has no colon either, the method that is found has the sub-signature that was
looked for.

All methods that may run in a gap therefore have as many parameters as the gap's own
signature names, and a receiver unless they are static.

## Main results

* `MethodSignature.legible_of_parse`: what is known of signatures that were read.
* `MethodSignature.Legible.eq_of_render_eq`: signatures can be told from their written forms.
* `Program.Built.declared`: methods have their receiver and the parameters of their signature.
* `Session.names_of_mem_gapMethods`: methods that may run in a gap have the parameters that it names.
-/

namespace TaintReplay

open Text

/-! ## Cutting texts -/

namespace Text

/-- Where a text is cut at its first sign of a kind, the parts are determined. -/
theorem cut_unique {test : Char → Bool} {first first' : List Char} {sign sign' : Char}
    {rest rest' : List Char} (hfirst : ∀ c ∈ first, test c = false)
    (hfirst' : ∀ c ∈ first', test c = false) (hsign : test sign = true)
    (hsign' : test sign' = true) (h : first ++ sign :: rest = first' ++ sign' :: rest') :
    first = first' ∧ rest = rest' := by
  induction first generalizing first' with
  | nil =>
      cases first' with
      | nil => exact ⟨rfl, (List.cons.inj h).2⟩
      | cons c first' =>
          obtain ⟨rfl, -⟩ := List.cons.inj h
          rw [hfirst' _ List.mem_cons_self] at hsign
          cases hsign
  | cons c first ih =>
      cases first' with
      | nil =>
          obtain ⟨rfl, -⟩ := List.cons.inj h
          rw [hfirst _ List.mem_cons_self] at hsign'
          cases hsign'
      | cons d first' =>
          obtain ⟨rfl, htail⟩ := List.cons.inj h
          obtain ⟨rfl, hrest⟩ := ih (fun c hc => hfirst c (List.mem_cons_of_mem _ hc))
            (fun c hc => hfirst' c (List.mem_cons_of_mem _ hc)) htail
          exact ⟨rfl, hrest⟩

theorem mem_of_mem_trimChars {cs : List Char} {c : Char} (h : c ∈ trimChars cs) : c ∈ cs := by
  rw [trimChars, trimEnd, List.mem_reverse] at h
  have hreverse := (List.dropWhile_suffix _).mem h
  exact (List.dropWhile_suffix _).mem (List.mem_reverse.1 hreverse)

/-- A trimmed text that is not empty has a sign that is not blank. -/
theorem exists_not_isBlank {cs : List Char} (h : trimChars cs ≠ []) :
    ∃ c ∈ trimChars cs, isBlank c = false := by
  obtain ⟨c, rest, hlast⟩ := List.exists_cons_of_ne_nil (List.reverse_ne_nil_iff.2 h)
  have hstop := stops_reverse_trimChars cs
  rw [hlast] at hstop
  exact ⟨c, List.mem_reverse.1 (hlast ▸ List.mem_cons_self), hstop c rfl⟩

end Text

/-! ## Reading and writing -/

namespace MethodSignature

/-- No part of the signature has a sign that ends it in the written form. -/
structure Legible (m : MethodSignature) : Prop where
  className : ':' ∉ m.className.toList
  returnType : ∀ c ∈ m.returnType.toList, isBlank c = false
  name : '(' ∉ m.name.toList
  parameters : ∀ p ∈ m.parameters, ',' ∉ p.toList
  nonempty : m.parameters ≠ [""]

theorem not_mem_of_mem_readParameters {cs : List Char} {p : String} (h : p ∈ readParameters cs) :
    ',' ∉ p.toList := by
  unfold readParameters at h
  split at h
  · cases h
  · obtain ⟨part, hpart, rfl⟩ := List.mem_map.1 h
    rw [String.toList_ofList]
    exact fun hcomma => not_mem_of_mem_splitAt hpart (mem_of_mem_trimChars hcomma)

/-- One parameter without a name is no parameter. -/
theorem readParameters_ne (cs : List Char) : readParameters cs ≠ [""] := by
  intro h
  unfold readParameters at h
  split at h
  · cases h
  · rename_i hne
    obtain ⟨part, hparts, hpart⟩ := List.map_eq_singleton_iff.1 h
    -- the only part is the whole, which is not blank
    have hall := intercalate_splitAt ',' (trimChars cs)
    rw [hparts, List.intercalate_singleton] at hall
    obtain ⟨c, hc, hblank⟩ := exists_not_isBlank hne
    refine trimChars_ne_nil (hall ▸ hc) hblank ?_
    exact String.ofList_eq_empty_iff.1 hpart

theorem legible_of_read? {cs : List Char} {m : MethodSignature} (h : read? cs = some m) :
    m.Legible := by
  obtain ⟨l, -, rfl⟩ := exists_layout_of_read? h
  refine ⟨fun hcolon => ?_, fun c hc => ?_, fun hopen => ?_,
    fun p hp => not_mem_of_mem_readParameters hp, readParameters_ne _⟩
  · simpa using l.isRun_className.2 ':' hcolon
  · simpa using l.isRun_returnType.2 c hc
  · simpa using l.isRun_name.2 '(' hopen

/-- Signatures that were read are legible. -/
theorem legible_of_parse {text : String} {m : MethodSignature} (h : parse text = .ok m) :
    m.Legible := by
  unfold parse at h
  split at h
  · rename_i m' hread
    cases h
    exact legible_of_read? hread
  · cases h

/-! ## Written forms -/

variable {a b : MethodSignature}

theorem toList_subSignature (m : MethodSignature) :
    m.subSignature.toList = m.returnType.toList ++ ' ' :: (m.name.toList ++
      '(' :: ([','].intercalate (m.parameters.map String.toList) ++ [')'])) := by
  simp [subSignature, String.toList_intercalate]

theorem toList_render (m : MethodSignature) :
    m.render.toList = '<' :: (m.className.toList ++ ':' :: ' ' :: (m.subSignature.toList ++ ['>'])) := by
  simp [render]

/-- A list that is written as nothing has no members, unless its only one is empty. -/
theorem eq_nil_of_intercalate_eq_nil {types : List String} (hne : types ≠ [""])
    (h : [','].intercalate (types.map String.toList) = []) : types = [] := by
  match types with
  | [] => rfl
  | [p] =>
      rw [List.map_singleton, List.intercalate_singleton, String.toList_eq_nil_iff] at h
      exact absurd (congrArg (fun text => [text]) h) hne
  | p :: q :: rest =>
      rw [List.map_cons, List.map_cons, List.intercalate_cons_cons] at h
      simp at h

/-- The parameters of legible signatures can be told from their list. -/
theorem Legible.parameters_of_intercalate (ha : a.Legible) (hb : b.Legible)
    (h : [','].intercalate (a.parameters.map String.toList) =
      [','].intercalate (b.parameters.map String.toList)) : a.parameters = b.parameters := by
  have hfree : ∀ {m : MethodSignature}, m.Legible →
      ∀ part ∈ m.parameters.map String.toList, ',' ∉ part := by
    intro m hm part hpart
    obtain ⟨p, hp, rfl⟩ := List.mem_map.1 hpart
    exact hm.parameters p hp
  by_cases hempty : a.parameters = []
  · rw [hempty] at h ⊢
    exact (eq_nil_of_intercalate_eq_nil hb.nonempty h.symm).symm
  · have hnone : b.parameters ≠ [] := by
      intro hb'
      rw [hb'] at h
      exact hempty (eq_nil_of_intercalate_eq_nil ha.nonempty h)
    have hsplit := congrArg (List.splitOn ',') h
    rw [List.splitOn_intercalate _ (hfree ha) (by simpa using hempty),
      List.splitOn_intercalate _ (hfree hb) (by simpa using hnone)] at hsplit
    exact List.map_injective_iff.2 (fun _ _ => String.toList_inj.1) hsplit

/-- The parts of legible signatures but the class can be told from their sub-signature. -/
theorem Legible.of_subSignature_eq (ha : a.Legible) (hb : b.Legible)
    (h : a.subSignature = b.subSignature) :
    a.returnType = b.returnType ∧ a.name = b.name ∧ a.parameters = b.parameters := by
  have htext := congrArg String.toList h
  rw [toList_subSignature, toList_subSignature] at htext
  obtain ⟨hreturn, hrest⟩ := cut_unique ha.returnType hb.returnType (by decide) (by decide) htext
  have hfree : ∀ {m : MethodSignature}, m.Legible → ∀ c ∈ m.name.toList, (c == '(') = false := by
    intro m hm c hc
    exact beq_eq_false_iff_ne.2 fun heq => hm.name (heq ▸ hc)
  obtain ⟨hname, hlist⟩ := cut_unique (hfree ha) (hfree hb) rfl rfl hrest
  exact ⟨String.toList_inj.1 hreturn, String.toList_inj.1 hname,
    ha.parameters_of_intercalate hb (List.append_cancel_right hlist)⟩

/-- The class and the sub-signature can be told from a written form. -/
theorem Legible.of_render_eq (ha : a.Legible) {cls sub : String} (hcls : ':' ∉ cls.toList)
    (h : a.render = "<" ++ cls ++ ": " ++ sub ++ ">") : a.className = cls ∧ a.subSignature = sub := by
  have htext : '<' :: (a.className.toList ++ ':' :: ' ' :: (a.subSignature.toList ++ ['>'])) =
      '<' :: (cls.toList ++ ':' :: ' ' :: (sub.toList ++ ['>'])) := by
    rw [← toList_render, h]
    simp
  have hfree : ∀ {text : String}, ':' ∉ text.toList → ∀ c ∈ text.toList, (c == ':') = false := by
    intro text htext c hc
    exact beq_eq_false_iff_ne.2 fun heq => htext (heq ▸ hc)
  obtain ⟨hname, hrest⟩ := cut_unique (hfree ha.className) (hfree hcls) rfl rfl (List.cons.inj htext).2
  have hsub := List.append_cancel_right (List.cons.inj hrest).2
  exact ⟨String.toList_inj.1 hname, String.toList_inj.1 hsub⟩

/-- Legible signatures can be told from their written forms. -/
theorem Legible.eq_of_render_eq (ha : a.Legible) (hb : b.Legible) (h : a.render = b.render) :
    a = b := by
  obtain ⟨hclass, hsub⟩ := ha.of_render_eq hb.className h
  obtain ⟨hreturn, hname, hparameters⟩ := ha.of_subSignature_eq hb hsub
  cases a
  cases b
  simp_all

end MethodSignature

/-! ## Methods of a program -/

/-- The method has a receiver unless it is static, and the parameters of its
signature, which was read. -/
structure Method.Declared (m : Method) : Prop where
  legible : m.signature.Legible
  receiver : m.receiver.isSome = !m.isStatic
  parameters : m.parameters.length = m.signature.parameters.length

theorem Method.Declared.withStmt {m : Method} (h : m.Declared) (id : MethodId) (s : StmtId) :
    (m.withStmt id s).Declared := by
  unfold Method.withStmt
  split
  · exact ⟨h.legible, h.receiver, h.parameters⟩
  · exact h

namespace Program

variable {p q : Program} {id : MethodId} {m : Method}

/-- Each part keeps methods declared. -/
theorem declared_adds (h : ∀ m ∈ p.methods, m.Declared) {part : Part} (added : p.Adds part q) :
    ∀ m ∈ q.methods, m.Declared := by
  cases added with
  | method read new =>
      rename_i isStatic isAbstract signature
      intro m hm
      rw [methods_createMethod] at hm
      rcases List.mem_append.1 hm with hold | hnew
      · exact h m hold
      · rw [List.mem_singleton.1 hnew]
        refine ⟨MethodSignature.legible_of_parse read, ?_, ?_⟩
        · cases isStatic <;> rfl
        · simp [nextMethod, declareAll_fst, parameterDecls]
  | declare => exact h
  | stmt known concrete =>
      intro m hm
      obtain ⟨n, hn, rfl⟩ := List.mem_map.1 hm
      exact (h n hn).withStmt _ _
  | target => exact h

theorem Built.declared (h : p.Built) : ∀ m ∈ p.methods, m.Declared :=
  h.induction (fun _ hm => absurd hm List.not_mem_nil) fun hp added => declared_adds hp added

theorem mem_methods (hm : p.method? id = some m) : m ∈ p.methods := by
  rw [method?] at hm
  cases hnumber : id.number with
  | zero =>
      rw [hnumber] at hm
      cases hm
  | succ n =>
      rw [hnumber] at hm
      exact List.mem_of_getElem? hm

/-- A method that is found by a text is written like this. -/
theorem Consistent.render_of_findText? (h : p.Consistent) {text : String}
    (hfound : p.findText? text = some id) (hm : p.method? id = some m) :
    m.signature.render = text := by
  obtain ⟨n, hn, rfl⟩ := Option.map_eq_some_iff.1 ((p.findText?_eq text).symm.trans hfound)
  obtain ⟨i, hi⟩ := List.mem_iff_getElem?.1 (List.mem_of_find?_eq_some hn)
  -- the number of the method that was found is its place
  have hplace : p.method? ⟨i + 1⟩ = some n := hi
  rw [h.numbered hplace, hplace] at hm
  cases hm
  have hwritten := List.find?_some hn
  exact beq_iff_eq.1 hwritten

/-- The method of a class without a colon has the sub-signature that was looked for. -/
theorem Built.subSignature_of_findMethodInClass? (h : p.Built) {cls sub : String}
    (hcls : ':' ∉ cls.toList) (hfound : p.findMethodInClass? cls sub = some id)
    (hm : p.method? id = some m) : m.subSignature = sub :=
  ((h.declared m (mem_methods hm)).legible.of_render_eq hcls
    (h.consistent.render_of_findText? hfound hm)).2

/-- The method of a signature has its sub-signature. -/
theorem Built.subSignature_of_findMethod? (h : p.Built) {text : String}
    (hfound : p.findMethod? text = some id) (hm : p.method? id = some m) :
    ∃ signature, MethodSignature.parse text = .ok signature ∧
      m.subSignature = signature.subSignature := by
  unfold findMethod? at hfound
  split at hfound
  · rename_i signature hread
    have hlegible := MethodSignature.legible_of_parse hread
    exact ⟨signature, hread, h.subSignature_of_findMethodInClass? hlegible.className hfound hm⟩
  · cases hfound

end Program

/-! ## Classes below a class -/

namespace Hierarchy

variable {h : Hierarchy} {name cls : String}

/-- All types below a type are known. -/
theorem mem_descendants (hmem : cls ∈ h.descendants name) :
    cls = name ∨ h.contains cls = true := by
  rcases (mem_descendants_iff_below.1 hmem).cases_tail with rfl | ⟨_, -, hbelow⟩
  · exact .inl rfl
  · exact .inr (contains_of_isParent (isParent_of_mem_below hbelow))

/-- No name of a known type has a colon. -/
def Legible (h : Hierarchy) : Prop := ∀ name, h.contains name = true → ':' ∉ name.toList

end Hierarchy

/-! ## Methods that may run in a gap -/

/-- The method has the parameters that the signature of a gap names, and a receiver
unless it is static. -/
def Gap.Names (gap : Gap) (m : Method) : Prop :=
  ∃ signature, MethodSignature.parse gap.signature = .ok signature ∧
    m.parameters.length = signature.parameters.length ∧ m.receiver.isSome = !m.isStatic

variable {σ : Type} {s : Session σ} {gap : Gap} {m : Method}

/-- A gap names the methods that may run in it. -/
theorem Session.names_of_mem_gapMethods (hbuilt : s.program.Built) (hnames : s.hierarchy.Legible)
    (hm : m ∈ s.gapMethods gap) : gap.Names m := by
  unfold Session.gapMethods at hm
  split at hm
  · cases hm
  · rename_i callee hcallee
    obtain ⟨id, hid, hcalled⟩ := Option.bind_eq_some_iff.1 hcallee
    obtain ⟨signature, hread, hsub⟩ := hbuilt.subSignature_of_findMethod? hid hcalled
    obtain ⟨id', hid', hmethod⟩ := List.mem_filterMap.1 hm
    obtain ⟨cls, hcls, hfound⟩ := List.mem_filterMap.1 (OrdSet.mem_ofList.1 hid')
    have hcalleeDeclared := hbuilt.declared callee (Program.mem_methods hcalled)
    have hdeclared := hbuilt.declared m (Program.mem_methods hmethod)
    have hcolon : ':' ∉ cls.toList := by
      rcases Hierarchy.mem_descendants hcls with rfl | hknown
      · exact hcalleeDeclared.legible.className
      · exact hnames cls hknown
    have hsame := hbuilt.subSignature_of_findMethodInClass? hcolon hfound hmethod
    have hparameters := (hdeclared.legible.of_subSignature_eq (MethodSignature.legible_of_parse hread)
      (hsame.trans hsub)).2.2
    exact ⟨signature, hread, hdeclared.parameters.trans (congrArg List.length hparameters),
      hdeclared.receiver⟩

end TaintReplay
