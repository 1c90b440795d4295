import Mathlib.Data.Set.Function
import Mathlib.Tactic.MkIffOfInductiveProp
import TaintReplay.Proofs.Signatures

/-!
# Signatures that come back from their text

Methods are looked up by the written form of their signature, so two methods whose signatures
are written alike would be taken for one. A signature can have any text in its parts, and many
of them do not come back: a class with a colon is cut there, blanks around a type are lost, and
a list of one type without a name is written like no list. `MethodSignature.Readable` are the
signatures without such parts. They are read from what they are written as, all signatures that
were read are of this kind, and no others come back. So for them nothing is lost in the text.

## Main results

* `Text.trim_intercalate`: a list of trimmed texts has no blanks around it.
* `MethodSignature.Readable.parse_render`: a readable signature is read from its written form.
* `MethodSignature.readable_of_parse`: signatures that were read are readable.
* `signatures_come_back_exactly`: which signatures come back, and that their texts differ.
-/

namespace TaintReplay

open Text

namespace Text

variable {test : Char → Bool} {sep : Char} {parts : List (List Char)}

/-! ## Trimmed texts -/

theorem Stops.append {cs rest : List Char} (h : Stops test cs) (hrest : Stops test rest) :
    Stops test (cs ++ rest) := by
  intro c hc
  rw [Option.mem_def, List.head?_append, Option.or_eq_some_iff] at hc
  rcases hc with hc | ⟨-, hc⟩
  · exact h c hc
  · exact hrest c hc

/-- A trimmed text has a sign that is not blank, unless it is empty. -/
theorem isBlankText_eq_false {text : String} (htrim : trim text = text) (hne : text ≠ "") :
    isBlankText text = false := by
  obtain ⟨c, cs, hcs⟩ := List.exists_cons_of_ne_nil fun h => hne (String.toList_eq_nil_iff.1 h)
  have hstop := (trim_eq_self_iff.1 htrim).1
  rw [hcs] at hstop
  rw [isBlankText, hcs, List.all_cons, hstop c rfl, Bool.false_and]

/-! ## Lists of texts -/

/-- A list begins and ends as its members do, or with the sign between them. -/
theorem stops_intercalate (hsep : test sep = false)
    (hparts : ∀ part ∈ parts, Stops test part ∧ Stops test part.reverse) :
    Stops test ([sep].intercalate parts) ∧ Stops test ([sep].intercalate parts).reverse := by
  induction parts with
  | nil =>
      have hnil : Stops test [] := fun c hc => nomatch hc
      exact ⟨hnil, hnil⟩
  | cons part parts ih =>
      obtain ⟨hfirst, hlast⟩ := hparts part List.mem_cons_self
      obtain ⟨hstart, hend⟩ := ih fun p hp => hparts p (List.mem_cons_of_mem _ hp)
      cases parts with
      | nil =>
          rw [List.intercalate_singleton]
          exact ⟨hfirst, hlast⟩
      | cons next parts =>
          rw [List.intercalate_cons_cons, List.reverse_append, List.reverse_append]
          have hsign : Stops test [sep] := stops_cons hsep []
          exact ⟨(hfirst.append hsign).append hstart, hend.append (hsign.append hlast)⟩

/-- The signs of a list are those of its members, but for the sign between them. -/
theorem mem_intercalate_iff {c : Char} (hc : c ≠ sep) :
    c ∈ [sep].intercalate parts ↔ ∃ part ∈ parts, c ∈ part := by
  induction parts with
  | nil => simp
  | cons part parts ih =>
      cases parts with
      | nil => simp
      | cons next parts =>
          rw [List.intercalate_cons_cons, List.mem_append, List.mem_append, ih]
          simp [hc]

/-- A list of trimmed texts has no blanks around it. -/
theorem trim_intercalate {types : List String} (h : ∀ type ∈ types, trim type = type) :
    trim (",".intercalate types) = ",".intercalate types := by
  rw [trim_eq_self_iff, String.toList_intercalate]
  refine stops_intercalate (by decide) fun part hpart => ?_
  obtain ⟨type, htype, rfl⟩ := List.mem_map.1 hpart
  exact trim_eq_self_iff.1 (h type htype)

end Text

namespace MethodSignature

/-- The parts of the signature are of the signs that can stand in their places, and its
parameters are told from their list. -/
@[mk_iff]
structure Readable (m : MethodSignature) : Prop where
  className : IsRun (fun c => c != ':' && !isBlank c) m.className
  returnType : IsRun (fun c => !isBlank c) m.returnType
  name : IsRun (fun c => c != '(' && !isBlank c) m.name
  trimmed : ∀ p ∈ m.parameters, trim p = p
  open_parameters : ∀ p ∈ m.parameters, ',' ∉ p.toList ∧ ')' ∉ p.toList
  nonempty : m.parameters ≠ [""]

instance (m : MethodSignature) : Decidable m.Readable := decidable_of_iff' _ (readable_iff m)

/-! ## What is written -/

variable {m : MethodSignature}

/-- The written form of parameters names them, unless they are one type without a name. -/
theorem lists_intercalate {types : List String} (htrim : ∀ p ∈ types, trim p = p)
    (hfree : ∀ p ∈ types, ',' ∉ p.toList) (hne : types ≠ [""]) :
    Lists (",".intercalate types) types := by
  by_cases hnil : types = []
  · rw [hnil]
    exact .none rfl
  · have hlist := trim_intercalate htrim
    have hfilled : ",".intercalate types ≠ "" := by
      intro hempty
      rw [← String.toList_eq_nil_iff, String.toList_intercalate] at hempty
      exact hnil (eq_nil_of_intercalate_eq_nil hne hempty)
    refine .parts (isBlankText_eq_false hlist hfilled) (trims_iff.2 hlist) hnil rfl hfree ?_
    exact forall₂_trims_iff.2 ((List.map_congr_left htrim).trans (List.map_id types))

/-- The list of the parameters goes up to the closing parenthesis. -/
theorem Readable.not_mem_intercalate (h : m.Readable) :
    ')' ∉ (",".intercalate m.parameters).toList := by
  rw [String.toList_intercalate]
  intro hclose
  obtain ⟨part, hpart, hmem⟩ := (mem_intercalate_iff (by decide)).1 hclose
  obtain ⟨p, hp, rfl⟩ := List.mem_map.1 hpart
  exact (h.open_parameters p hp).2 hmem

/-- The layout with a single blank in each place for blanks. -/
def Readable.layout (h : m.Readable) : Layout where
  className := m.className
  afterColon := " "
  returnType := m.returnType
  beforeName := " "
  name := m.name
  parameters := ",".intercalate m.parameters
  isRun_className := h.className
  isRun_afterColon := isRun_space
  isRun_returnType := h.returnType
  isRun_beforeName := isRun_space
  isRun_name := h.name
  open_parameters := h.not_mem_intercalate

theorem Readable.render_layout (h : m.Readable) : h.layout.render = m.render := by
  rw [← String.toList_inj, Layout.toList_render, toList_render, toList_subSignature]
  simp [layout, String.toList_intercalate]

theorem Readable.signature_layout (h : m.Readable) : h.layout.signature = m :=
  Layout.denotes_iff.1 ⟨rfl, rfl, rfl,
    lists_intercalate h.trimmed (fun p hp => (h.open_parameters p hp).1) h.nonempty⟩

/-- Nothing is trimmed of a written form, since it stands between brackets. -/
theorem trim_render (m : MethodSignature) : trim m.render = m.render := by
  rw [trim_eq_self_iff, toList_render]
  constructor
  · exact stops_cons (by decide) _
  · simp only [List.reverse_cons, List.reverse_append, List.reverse_nil, List.nil_append,
      List.cons_append, List.append_assoc]
    exact stops_cons (by decide) _

/-- A readable signature is read from its written form. -/
theorem Readable.parse_render (h : m.Readable) : parse m.render = .ok m := by
  have hread := h.layout.read?_render
  rw [h.signature_layout] at hread
  rw [parse_eq_ok_iff, ← trims_iff_toList.1 (trims_iff.2 ?_)]
  · exact hread
  · rw [h.render_layout, trim_render]

/-! ## What was read -/

theorem trim_of_mem_readParameters {cs : List Char} {p : String} (h : p ∈ readParameters cs) :
    trim p = p := by
  unfold readParameters at h
  split at h
  · cases h
  · obtain ⟨part, -, rfl⟩ := List.mem_map.1 h
    have htrim : String.ofList (trimChars part) = trim (String.ofList part) := by
      rw [trim, String.toList_ofList]
    rw [htrim, trim_trim]

/-- The signs of parameters stand in their list. -/
theorem mem_of_mem_readParameters {cs : List Char} {p : String} (h : p ∈ readParameters cs)
    {c : Char} (hc : c ∈ p.toList) : c ∈ cs := by
  have hcomma : c ≠ ',' := fun heq => not_mem_of_mem_readParameters h (heq ▸ hc)
  unfold readParameters at h
  split at h
  · cases h
  · obtain ⟨part, hpart, rfl⟩ := List.mem_map.1 h
    rw [String.toList_ofList] at hc
    have hlist := (mem_intercalate_iff hcomma).2 ⟨part, hpart, mem_of_mem_trimChars hc⟩
    rw [intercalate_splitAt] at hlist
    exact mem_of_mem_trimChars hlist

/-- Signatures that were read are readable. -/
theorem readable_of_parse {text : String} (h : parse text = .ok m) : m.Readable := by
  obtain ⟨l, -, rfl⟩ := exists_layout_of_read? (parse_eq_ok_iff.1 h)
  exact {
    className := l.isRun_className
    returnType := l.isRun_returnType
    name := l.isRun_name
    trimmed := fun p hp => trim_of_mem_readParameters hp
    open_parameters := fun p hp => ⟨not_mem_of_mem_readParameters hp,
      fun hclose => l.open_parameters (mem_of_mem_readParameters hp hclose)⟩
    nonempty := readParameters_ne _ }

/-- Readable signatures can be told from their written forms, since they are read from them. -/
theorem injOn_render : Set.InjOn render {m | m.Readable} := by
  intro a ha b hb h
  have hread := ha.parse_render
  rw [h, hb.parse_render] at hread
  exact (Except.ok.inj hread).symm

end MethodSignature

/-- **Signatures come back exactly if they are readable.** A signature of any texts is read from
its written form exactly if it is readable. All signatures that were read are, so they come back
however often they are written and read. Readable signatures differ in their written forms, and
those of one class in their sub-signatures. -/
theorem signatures_come_back_exactly :
    (∀ m : MethodSignature, MethodSignature.parse m.render = .ok m ↔ m.Readable) ∧
    (∀ text m, MethodSignature.parse text = .ok m →
      m.Readable ∧ MethodSignature.parse m.render = .ok m) ∧
    Set.InjOn MethodSignature.render {m | m.Readable} ∧
    ∀ cls, Set.InjOn MethodSignature.subSignature {m | m.Readable ∧ m.className = cls} := by
  refine ⟨fun m => ⟨MethodSignature.readable_of_parse, fun h => h.parse_render⟩,
    fun text m h => ?_, MethodSignature.injOn_render, fun cls a ha b hb h => ?_⟩
  · have hreadable := MethodSignature.readable_of_parse h
    exact ⟨hreadable, hreadable.parse_render⟩
  · refine MethodSignature.injOn_render ha.1 hb.1 ?_
    rw [MethodSignature.render, MethodSignature.render, h, ha.2, hb.2]

namespace Sample

/-- A signature with signs of other parts in its parts, an inner blank and a missing type. -/
def oddSignature : MethodSignature := ⟨"a.<B", "x:(>", "<init>", ["int [ ]", ""]⟩

theorem oddSignature_comes_back :
    oddSignature.Readable ∧ MethodSignature.parse oddSignature.render = .ok oddSignature ∧
      MethodSignature.parse " <a.<B:\tx:(>\u3000<init>( int [ ] ,\n)>" = .ok oddSignature ∧
      ¬ MethodSignature.parse (⟨"a.<B", "x:(>", "<init>", [""]⟩ : MethodSignature).render =
        .ok ⟨"a.<B", "x:(>", "<init>", [""]⟩ := by
  have hread : MethodSignature.parse " <a.<B:\tx:(>\u3000<init>( int [ ] ,\n)>" =
      .ok oddSignature := MethodSignature.parse_eq_ok_iff.2 (by decide +kernel)
  obtain ⟨hexact, hback, -, -⟩ := signatures_come_back_exactly
  obtain ⟨hreadable, hagain⟩ := hback _ _ hread
  exact ⟨hreadable, hagain, hread, fun h => absurd ((hexact _).1 h) (by decide +kernel)⟩

end Sample

end TaintReplay
