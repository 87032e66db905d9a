import Phrasebook.Proofs.Resolution.Intact
import Phrasebook.Proofs.Resolution.Reachable

/-!
# Isolation only adds marks

Isolation puts marks around values. What is written with it is what is written without it, with
marks added in pairs that nest, and the same errors are met on the way. The values that select a
variant and the arguments of functions must not hold written text, for the marks in it would count.
-/

namespace Phrasebook

namespace Text

/-- One of the two marks "first strong isolate" and "pop directional isolate". -/
def isMark (c : Char) : Bool := c == '\u2068' || c == '\u2069'

/-- Where so many isolates are open, each mark that closes one has one to close, and at the end all
are closed. -/
def closes : (depth : Nat) → List Char → Bool
  | depth, [] => depth == 0
  | depth, c :: rest =>
    if c = '\u2068' then closes (depth + 1) rest
    else if c = '\u2069' then 0 < depth && closes (depth - 1) rest
    else closes depth rest

/-- The marks are properly nested, and none is left over. -/
def Balanced (text : String) : Prop := closes 0 text.toList = true

/-- There are no marks in the text. -/
def Unmarked (text : String) : Prop := ∀ c ∈ text.toList, isMark c = false

/-- The text with its marks deleted. -/
def withoutMarks (text : String) : String := .ofList (text.toList.filter fun c => !isMark c)

/-- The text is the plain one, with marks added that are properly nested. -/
structure Adorns (text plain : String) : Prop where
  balanced : Balanced text
  plain : withoutMarks text = plain

instance (text : String) : Decidable (Balanced text) :=
  inferInstanceAs (Decidable (closes 0 text.toList = true))

instance (text : String) : Decidable (Unmarked text) :=
  decidable_of_iff (text.toList.all fun c => !isMark c) (by simp [Unmarked])

variable {a b : List Char} {text text' plain plain' : String}

/-- What closes all isolates that are open leaves those that were open around them. -/
theorem closes_append {depth : Nat} (h : closes depth a = true) (outer : Nat) :
    closes (depth + outer) (a ++ b) = closes outer b := by
  -- The isolates around are never touched: `a` only closes what it has opened, or found open.
  induction a generalizing depth with
  | nil =>
    obtain rfl : depth = 0 := by simpa [closes] using h
    rw [Nat.zero_add, List.nil_append]
  | cons c rest ih =>
    rw [closes] at h
    rw [List.cons_append, closes]
    split
    · rw [if_pos ‹_›] at h
      rw [Nat.add_right_comm]
      exact ih h
    · rw [if_neg ‹_›] at h
      split
      · rw [if_pos ‹_›, Bool.and_eq_true, decide_eq_true_eq] at h
        have hdepth : depth + outer - 1 = depth - 1 + outer := by omega
        rw [hdepth, ih h.2, decide_eq_true (by omega), Bool.true_and]
      · rw [if_neg ‹_›] at h
        exact ih h

/-- A text without marks is balanced. -/
theorem closes_of_unmarked (h : ∀ c ∈ a, isMark c = false) : closes 0 a = true := by
  induction a with
  | nil => rfl
  | cons c rest ih =>
    have hc : ¬c = '\u2068' ∧ ¬c = '\u2069' := by simpa [isMark] using h c List.mem_cons_self
    rw [closes, if_neg hc.1, if_neg hc.2]
    exact ih fun d hd => h d (List.mem_cons_of_mem _ hd)

/-- Texts without marks have none together. -/
theorem Unmarked.append (h : Unmarked text) (h' : Unmarked text') : Unmarked (text ++ text') := by
  intro c hc
  rw [String.toList_append, List.mem_append] at hc
  exact hc.elim (h c) (h' c)

/-- A text without marks adorns itself. -/
theorem Adorns.of_unmarked (h : Unmarked text) : Adorns text text where
  balanced := closes_of_unmarked h
  plain := by
    rw [withoutMarks, List.filter_eq_self.mpr fun c hc => by rw [h c hc]; rfl, String.ofList_toList]

/-- Adorned texts are adorned together. -/
theorem Adorns.append (h : Adorns text plain) (h' : Adorns text' plain') :
    Adorns (text ++ text') (plain ++ plain') where
  balanced := by
    rw [Balanced, String.toList_append]
    exact (closes_append h.balanced 0).trans h'.balanced
  plain := by
    rw [← h.plain, ← h'.plain, withoutMarks, String.toList_append, List.filter_append,
      String.ofList_append]
    rfl

/-- The marks of an isolate are a pair around what is isolated. -/
theorem Adorns.isolate (h : Adorns text plain) : Adorns (isolate text) plain where
  balanced := by
    have hend := closes_append (b := ['\u2069']) h.balanced 1
    rw [Balanced, Phrasebook.isolate, String.toList_append, String.toList_append]
    exact hend
  plain := by
    have hmarks : withoutMarks (Phrasebook.isolate text) = withoutMarks text := by
      simp [withoutMarks, Phrasebook.isolate, isMark]
    rw [hmarks, h.plain]

/-- Identifiers have no marks. -/
theorem isMark_eq_false_of_isIdentifierChar {c : Char} (h : Reader.isIdentifierChar c = true) :
    isMark c = false := by
  rw [isMark, Bool.or_eq_false_iff, beq_eq_false_iff_ne, beq_eq_false_iff_ne]
  constructor <;> rintro rfl <;> revert h <;> decide

end Text

open Text

/-- Identifiers have no marks. -/
theorem IsIdentifier.unmarked {name : String} (h : IsIdentifier name) : Unmarked name := by
  obtain ⟨first, rest, hname, hfirst, hrest⟩ := h
  intro c hc
  rw [hname] at hc
  refine isMark_eq_false_of_isIdentifierChar ?_
  rcases List.mem_cons.mp hc with rfl | hc
  · simp [Reader.isIdentifierChar, Char.isAlphanum, hfirst]
  · exact hrest c hc

/-- The name of a function is an identifier. -/
theorem IsFunctionName.isIdentifier {name : String} (h : IsFunctionName name) :
    IsIdentifier name := by
  have hletter {c : Char} (h : c.isUpper) : c.isAlpha := Bool.or_eq_true_iff.mpr (.inl h)
  obtain ⟨first, rest, hname, hfirst, hrest⟩ := h
  refine ⟨first, rest, hname, hletter hfirst, fun d hd => ?_⟩
  rcases hrest d hd with h | h | rfl | rfl
  · simp [Reader.isIdentifierChar, Char.isAlphanum, hletter h]
  · simp [Reader.isIdentifierChar, Char.isAlphanum, h]
  · rfl
  · rfl

/-- Braces are no marks. -/
theorem unmarked_braced {text : String} (h : Unmarked text) : Unmarked (braced text) :=
  (Unmarked.append (by decide) h).append (by decide)

/-- The name of a reference has no marks if its parts have none. -/
theorem unmarked_referenceName {id : String} {attr : Option String} (hid : Unmarked id)
    (hattr : ∀ a ∈ attr, Unmarked a) : Unmarked (referenceName id attr) := by
  cases attr with
  | none => exact hid
  | some a => exact (hid.append (by decide)).append (hattr a rfl)

namespace Resolution

variable {α β : Type} {scope : Option Arguments} {R : α → α → Prop} {S : β → β → Prop}
  {m m' : Resolution α}

/-- What the two runs come to is related, and they leave the same context behind, with the variables
of `scope` in sight. -/
structure Coupled (scope : Option Arguments) (R : α → α → Prop) (run run' : α × Context) :
    Prop where
  result : R run.1 run'.1
  context : run.2 = run'.2
  scope : run.2.scope = scope

/-- From any context with the variables of `scope` in sight, the two run alike. -/
def Parallel (scope : Option Arguments) (R : α → α → Prop) (m m' : Resolution α) : Prop :=
  ∀ c, c.scope = scope → Coupled scope R (m.run c) (m'.run c)

/-- Results that belong together are returned in parallel. -/
theorem parallel_pure {a a' : α} (h : R a a') : Parallel scope R (pure a) (pure a') :=
  fun _ hscope => ⟨h, rfl, hscope⟩

/-- Parallel steps are parallel in a sequence. -/
theorem Parallel.bind {f f' : α → Resolution β} (hm : Parallel scope R m m')
    (hf : ∀ a a', R a a' → Parallel scope S (f a) (f' a')) :
    Parallel scope S (m >>= f) (m' >>= f') := by
  intro c hscope
  obtain ⟨hresult, hcontext, hscope⟩ := hm c hscope
  rw [run_bind, run_bind, ← hcontext]
  exact hf _ _ hresult _ hscope

/-- What is made of parallel results is parallel. -/
theorem Parallel.map (hm : Parallel scope R m m') {f f' : α → β}
    (hf : ∀ a a', R a a' → S (f a) (f' a')) :
    Parallel scope S (return f (← m)) (return f' (← m')) :=
  hm.bind fun a a' h => parallel_pure (hf a a' h)

/-- An error is recorded in both. -/
theorem parallel_report (e : ResolutionError) : Parallel scope Eq (report e) (report e) :=
  fun _ hscope => ⟨rfl, rfl, hscope⟩

/-- The limit is exceeded in both or in neither. -/
theorem parallel_exhausted : Parallel scope Eq exhausted exhausted :=
  fun _ hscope => ⟨rfl, rfl, hscope⟩

/-- A placeable is counted in both. -/
theorem parallel_count : Parallel scope Eq count count :=
  fun c hscope => ⟨rfl, rfl, (intact_count c).scope.trans hscope⟩

/-- Terms are parallel if they are so inside. -/
theorem Parallel.withScope {inside : Arguments} (h : Parallel (some inside) R m m')
    (outer : Option Arguments) : Parallel outer R (withScope inside m) (withScope inside m') := by
  intro c hscope
  obtain ⟨hresult, hcontext, -⟩ := h (c.child inside) rfl
  rw [run_withScope, run_withScope]
  exact ⟨hresult, by rw [hcontext], hscope⟩

/-- Frames are parallel if they are so inside. -/
theorem Parallel.inFrame (h : Parallel scope R m m') (frame : Frame) :
    Parallel scope R (inFrame frame m) (inFrame frame m') := by
  intro c hscope
  obtain ⟨hresult, hcontext, hscope⟩ := h { c with stack := frame :: c.stack } hscope
  rw [run_inFrame, run_inFrame]
  exact ⟨hresult, by rw [hcontext], hscope⟩

/-- What depends on nothing but the variables in sight runs alike. -/
theorem Steady.parallel (h : Steady m m') (hR : ∀ c, c.scope = scope → R (m.run c).1 (m.run c).1) :
    Parallel scope R m m' := by
  intro c hscope
  have hresult := hR c hscope
  obtain ⟨a, new, hrun, hrun'⟩ := h c c rfl
  rw [hrun] at hresult ⊢
  rw [hrun']
  exact ⟨hresult, rfl, hscope⟩

end Resolution

/-- Both give a result, and the results are related, or both give the same fallback, which holds no
marks. -/
inductive Shows {α : Type} (R : α → α → Prop) : Except String α → Except String α → Prop
  | ok {a a' : α} : R a a' → Shows R (.ok a) (.ok a')
  | error {fallback : String} : Unmarked fallback → Shows R (.error fallback) (.error fallback)

namespace Resolver

open Resolution

/-- The same resolver with isolation. -/
def isolating (r : Resolver) : Resolver := { r with useIsolating := true }

/-- The same resolver without isolation. -/
def plain (r : Resolver) : Resolver := { r with useIsolating := false }

/-- The values are one whose text holds no marks, or two texts of which one adorns the other. -/
inductive AdornsValue (r : Resolver) : Value → Value → Prop
  | same {value : Value} : Unmarked (r.valueText value) → AdornsValue r value value
  | text {text plain : String} : Adorns text plain → AdornsValue r (.string text) (.string plain)

variable {r : Resolver} {o o' : Opening} {scope : Option Arguments}

/-- Texts that are adorned are so as values. -/
theorem adornsValue_of_text {result result' : Except String String}
    (h : Shows Adorns result result') :
    Shows r.AdornsValue (result.map .string) (result'.map .string) := by
  cases h with
  | ok h => exact .ok (.text h)
  | error h => exact .error h

/-- What is shown for results that are adorned is adorned. -/
theorem adorns_shown {result result' : Except String String} (h : Shows Adorns result result') :
    Adorns (shown result) (shown result') := by
  cases h with
  | ok h => exact h
  | error h => exact .of_unmarked h

/-- A fallback without marks is written in both. -/
theorem parallel_fallback {α : Type} {R : α → α → Prop} {fallback : String} (h : Unmarked fallback)
    (e : ResolutionError) :
    Parallel scope (Shows R) (do report e; return .error fallback)
      (do report e; return .error fallback) :=
  (parallel_report e).bind fun _ _ _ => parallel_pure (.error h)

/-- A value without marks is written in both. -/
theorem parallel_writeValue {value : Value} (h : Unmarked (r.valueText value)) :
    Parallel scope Adorns (r.isolating.writeValue value) (r.plain.writeValue value) := by
  rw [valueText] at h
  rw [writeValue, writeValue, isolating, plain]
  cases hformat : value.format r.locale with
  | some text =>
    rw [hformat] at h
    exact parallel_pure (.of_unmarked h)
  | none =>
    rw [hformat] at h
    exact (parallel_report _).bind fun _ _ _ => parallel_pure (.of_unmarked h)

/-- A result is written adorned if it is so. -/
theorem parallel_writeResult {result result' : Except String Value}
    (h : Shows r.AdornsValue result result') :
    Parallel scope Adorns (r.isolating.writeResult result) (r.plain.writeResult result') := by
  cases h with
  | error h => exact parallel_pure (.of_unmarked h)
  | ok h =>
    cases h with
    | same h => exact parallel_writeValue h
    | text h => exact parallel_pure h

/-- Where a value is isolated, a pair of marks is added around what is written for it. -/
theorem parallel_elements (isolating : Bool) {p : Pattern}
    (htext : ∀ value, .text value ∈ p → Unmarked value)
    (hp : ∀ e, .placeable e ∈ p →
      Parallel scope (Shows r.AdornsValue) (r.isolating.expression o e) (r.plain.expression o' e)) :
    Parallel scope Adorns (r.isolating.elements o isolating p) (r.plain.elements o' false p) := by
  have hempty : Adorns "" "" := .of_unmarked (by decide)
  -- The induction is on the elements; both runs have counted the same placeables so far, so that
  -- the budget ends for both at the same element.
  induction p with
  | nil =>
    rw [elements, elements]
    exact parallel_pure hempty
  | cons element rest ih =>
    have hrest := ih (fun value hvalue => htext value (List.mem_cons_of_mem _ hvalue))
      fun e he => hp e (List.mem_cons_of_mem _ he)
    cases element with
    | text value =>
      have hvalue := Adorns.of_unmarked (htext value List.mem_cons_self)
      rw [elements_text, elements_text]
      refine parallel_exhausted.bind ?_
      rintro exhausted _ rfl
      cases exhausted with
      | true => exact parallel_pure hempty
      | false => exact hrest.map fun _ _ h => hvalue.append h
    | placeable inner =>
      rw [elements_placeable, elements_placeable]
      refine parallel_count.bind fun _ _ _ => parallel_exhausted.bind ?_
      rintro exhausted _ rfl
      cases exhausted with
      | true => exact parallel_pure hempty
      | false =>
        refine (hp inner List.mem_cons_self).bind fun result result' hresult =>
          (parallel_writeResult hresult).bind fun text text' htext => hrest.map fun _ _ h => ?_
        -- Marks are put around the text here, or it is left as it is; its adorned form is balanced
        -- both ways.
        refine Adorns.append ?_ h
        split
        · exact htext.isolate
        · exact htext

/-- Messages are parallel if their patterns are. -/
theorem parallel_openMessage {id : String} {attr : Option String} (hid : Unmarked id)
    (hattr : ∀ a ∈ attr, Unmarked a)
    (hopen : ∀ p fallback, r.messagePattern id attr = .ok p → Unmarked fallback →
      Parallel scope (Shows Adorns) (reaching fallback (o (.message id attr) p))
        (reaching fallback (o' (.message id attr) p))) :
    Parallel scope (Shows Adorns) (r.isolating.openMessage o id attr)
      (r.plain.openMessage o' id attr) := by
  have hfallback := unmarked_braced (unmarked_referenceName hid hattr)
  exact openMessage_rel rfl (fun p hp => hopen p _ hp hfallback) fun e _ =>
    parallel_fallback hfallback e

/-- Terms are parallel if their patterns are. -/
theorem parallel_openTerm {id : String} {attr : Option String} (hid : Unmarked id)
    (hattr : ∀ a ∈ attr, Unmarked a) {inside : Arguments}
    (hopen : ∀ p fallback, r.termPattern id attr = .ok p → Unmarked fallback →
      Parallel (some inside) (Shows Adorns) (reaching fallback (o (.term id attr) p))
        (reaching fallback (o' (.term id attr) p))) :
    Parallel scope (Shows Adorns) (r.isolating.openTerm o id attr inside)
      (r.plain.openTerm o' id attr inside) := by
  have hfallback := unmarked_braced
    ((show Unmarked "-" by decide).append (unmarked_referenceName hid hattr))
  exact openTerm_rel rfl (fun p hp => (hopen p _ hp hfallback).withScope scope) fun e _ =>
    parallel_fallback hfallback e

/-- The selector comes to the same, so the same variant is chosen. -/
theorem parallel_select {selector : Expression} {variants : List Variant}
    (hselector : Steady (r.isolating.expression o selector) (r.plain.expression o' selector))
    (hvariants : ∀ v ∈ variants,
      Parallel scope Adorns (r.isolating.pattern o v.value) (r.plain.pattern o' v.value)) :
    Parallel scope (Shows r.AdornsValue) (r.isolating.expression o (.select selector variants))
      (r.plain.expression o' (.select selector variants)) := by
  rw [expression_select, expression_select]
  refine (hselector.parallel (R := Eq) fun _ _ => rfl).bind ?_
  rintro selected _ rfl
  have hon : r.isolating.locale = r.locale := rfl
  have hoff : r.plain.locale = r.locale := rfl
  rw [hon, hoff]
  cases hchosen : Variant.chosen? r.locale variants selected.toOption with
  | none => exact parallel_fallback (by decide) _
  | some v =>
    exact (hvariants v (Variant.mem_of_chosen? hchosen)).map fun _ _ h => .ok (.text h)

/-- What is written by itself runs alike if no marks are in it. -/
theorem parallel_leaf {e : Expression}
    (hsteady : ∀ (r' : Resolver) (o' : Opening), r'.functions = r.functions → r'.locale = r.locale →
      Steady (r.isolating.expression o e) (r'.expression o' e))
    (hok : ∀ value, r.valueIn scope e = .ok value → Unmarked (r.valueText value))
    (herror : ∀ fallback, r.valueIn scope e = .error fallback → Unmarked fallback) :
    Parallel scope (Shows r.AdornsValue) (r.isolating.expression o e)
      (r.plain.expression o' e) := by
  refine (hsteady r.plain o' rfl rfl).parallel ?_
  rintro c rfl
  obtain ⟨new, hrun⟩ := run_of_steady (hsteady r (r.opening 0) rfl rfl) c
  rw [hrun]
  cases hvalue : r.valueIn c.scope e with
  | ok value => exact .ok (.same (hok value hvalue))
  | error fallback => exact .error (herror fallback hvalue)

/-- The fallback of a variable has no marks. -/
theorem unmarked_of_variableRef {name fallback : String} (hname : Unmarked name)
    (h : r.valueIn scope (.variableRef name) = .error fallback) : Unmarked fallback := by
  rw [valueIn, expression] at h
  cases hlookup : (Context.initial scope 0 0).lookup? name with
  | some value =>
    rw [run_variableValue_some hlookup] at h
    cases h
  | none =>
    rw [run_variableValue_none hlookup] at h
    cases h
    exact unmarked_braced ((show Unmarked "$" by decide).append hname)

/-- The fallback of a call is told from its name. -/
theorem eq_of_call_error {name fallback : String} {positional : Option (List Value)}
    {named : Arguments} {c : Context}
    (h : ((r.call name positional named).run c).1 = .error fallback) :
    fallback = braced (name ++ "()") := by
  cases positional with
  | none =>
    cases h
    rfl
  | some positional =>
    rw [call] at h
    split at h
    · cases h
      rfl
    · rename_i function _
      cases hcall : function positional named r.locale with
      | ok value =>
        rw [hcall] at h
        cases h
      | error cause =>
        rw [hcall] at h
        cases h
        rfl

/-- The fallback of a call has no marks. -/
theorem unmarked_of_call {name fallback : String} {arguments : CallArguments}
    (hname : Unmarked name) (h : r.valueIn scope (.call name arguments) = .error fallback) :
    Unmarked fallback := by
  obtain ⟨positional, named⟩ := arguments
  rw [valueIn, expression, run_bind] at h
  rw [eq_of_call_error h]
  exact unmarked_braced (hname.append (by decide))

/-- The expression runs alike where it selects a variant, and also where it is written, if no marks
are in what it writes by itself. -/
structure Adorned (r : Resolver) (o o' : Opening) (scope : Option Arguments) (e : Expression) :
    Prop where
  selects : e.Selects → (∀ id attr arguments, e ≠ .termRef id attr arguments) →
    Steady (r.isolating.expression o e) (r.plain.expression o' e)
  writes : (e.isLeaf → ∀ value, r.valueIn scope e = .ok value → Unmarked (r.valueText value)) →
    Parallel scope (Shows r.AdornsValue) (r.isolating.expression o e) (r.plain.expression o' e)

/-- A leaf is adorned if it is steady and its fallback has no marks. -/
theorem adorned_leaf {e : Expression} (hleaf : e.isLeaf)
    (hsteady : ∀ (r' : Resolver) (o' : Opening), r'.functions = r.functions → r'.locale = r.locale →
      Steady (r.isolating.expression o e) (r'.expression o' e))
    (herror : ∀ fallback, r.valueIn scope e = .error fallback → Unmarked fallback) :
    Adorned r o o' scope e where
  selects _ _ := hsteady r.plain o' rfl rfl
  writes h := parallel_leaf hsteady (h hleaf) herror

/-- A leaf without references is adorned if its fallback has no marks. -/
theorem adorned_direct {e : Expression} (hleaf : e.isLeaf) (hdirect : e.Direct)
    (herror : ∀ fallback, r.valueIn scope e = .error fallback → Unmarked fallback) :
    Adorned r o o' scope e :=
  adorned_leaf hleaf
    (fun _ _ hfunctions hlocale => steady_direct (r := r.isolating) hfunctions hlocale hdirect)
    herror

section Ascends

variable {first : Frame} {args : Option Arguments}

/-- No marks are in the texts of the patterns and in what placeables write by themselves, and what
selects a variant or is an argument of a function enters no pattern. -/
structure MarksNothing (r : Resolver) (first : Frame) (args : Option Arguments) : Prop where
  selector : ∀ selector variants, .select selector variants ∈ r.entries.nodes →
    ∀ id attr arguments, selector ≠ .termRef id attr arguments
  argument : ∀ name arguments, .call name arguments ∈ r.entries.nodes →
    ∀ e ∈ arguments.positional, e.Direct
  text : ∀ q, .pattern q ∈ r.entries.nodes → ∀ value, .text value ∈ q → Unmarked value
  value : ∀ scope q e, r.entries.ReachesInside first args scope q → .placeable e ∈ q → e.isLeaf →
    ∀ value, r.valueIn scope e = .ok value → Unmarked (r.valueText value)

/-- The identifiers of a parsed pattern have no marks. -/
theorem unmarked_of_identifier (hparsed : r.entries.Parsed) {p : Pattern}
    (hp : r.entries.Reaches first args scope p) {name : String}
    (h : .identifier name ∈ (Outline.ofPattern p).nodes) : Unmarked name := by
  have hname : IsIdentifier name := hparsed.lawful _ (hp.mem_nodes h)
  exact hname.unmarked

/-- Expressions and patterns are adorned if the references in them are, constructor by
constructor. -/
theorem ascends_adorned (hunmarked : r.MarksNothing first args) (hparsed : r.entries.Parsed)
    (hopen : ∀ fallback frame scope p, r.entries.Reaches first args scope p → Unmarked fallback →
      Parallel scope (Shows Adorns) (reaching fallback (o frame p))
        (reaching fallback (o' frame p)))
    {p : Pattern} (hp : r.entries.Reaches first args scope p) :
    Ascends (· ∈ (Outline.ofPattern p).nodes) (Adorned r o o' scope)
      fun q => Parallel scope Adorns (r.isolating.pattern o q) (r.plain.pattern o' q) where
  string l := adorned_direct rfl (Expression.direct_string l) fun fallback h => by
    rw [valueIn, expression] at h
    cases h
  number l := adorned_direct rfl (Expression.direct_number l) fun fallback h => by
    rw [valueIn, expression] at h
    cases h
  variableRef name _ hid :=
    adorned_direct rfl (Expression.direct_variableRef name) fun fallback =>
      unmarked_of_variableRef (unmarked_of_identifier hparsed hp hid)
  messageRef id attr hnode hid hattr :=
    { selects := False.elim
      writes := fun _ => by
        have hid := unmarked_of_identifier hparsed hp hid
        have hattr := fun a ha => unmarked_of_identifier hparsed hp (hattr a ha)
        rw [expression, expression]
        refine (parallel_openMessage hid hattr fun q fallback hq => ?_).map
          fun _ _ => adornsValue_of_text
        exact hopen fallback _ scope q (.message hp hnode (pattern?_of_messagePattern hq)) }
  -- The text of a term may carry marks, which would change what is chosen by it; so no selector is
  -- a term.
  termRef id attr arguments hnode hid hattr :=
    { selects := fun _ h => absurd rfl (h id attr arguments)
      writes := fun _ => by
        have hid := unmarked_of_identifier hparsed hp hid
        have hattr := fun a ha => unmarked_of_identifier hparsed hp (hattr a ha)
        rw [expression_termRef, expression_termRef]
        refine (parallel_openTerm hid hattr fun q fallback hq => ?_).map
          fun _ _ => adornsValue_of_text
        exact hopen fallback _ _ q (.term hp hnode (pattern?_of_termPattern hq)) }
  -- The values of a call go by themselves, without frames: they are the same with marks and
  -- without.
  call name arguments hnode _ := by
    have hname : IsFunctionName name := hparsed.lawful _ (hp.mem_nodes hnode)
    have hdirect := hunmarked.argument name arguments (hp.mem_nodes hnode)
    refine adorned_leaf rfl (fun r' o' hfunctions hlocale => ?_) fun fallback =>
      unmarked_of_call hname.isIdentifier.unmarked
    exact steady_call (r := r.isolating) hfunctions hlocale name fun e he =>
      steady_direct (r := r.isolating) hfunctions hlocale (hdirect e he)
  select selector variants hnode hselector hvariants :=
    { selects := False.elim
      writes := fun _ => by
        have hselects := (hparsed.lawful _ (hp.mem_nodes hnode)).1
        have hterm := hunmarked.selector selector variants (hp.mem_nodes hnode)
        exact parallel_select (hselector.selects hselects hterm) hvariants }
  placeable inner hinner :=
    { selects := False.elim
      writes := fun h => by
        rw [expression, expression]
        refine hinner.writes fun hleaf value hvalue => h hleaf value ?_
        rw [valueIn, expression]
        exact hvalue }
  pattern q hnode hq := by
    rw [pattern, pattern]
    refine parallel_elements _ (hunmarked.text q (hp.mem_nodes hnode)) fun e he => ?_
    exact (hq e he).writes (hunmarked.value scope q e ⟨p, hp, hnode⟩ he)

section Run

variable (hunmarked : r.MarksNothing first args) (hparsed : r.entries.Parsed)

include hunmarked hparsed

/-- References are adorned, by induction on the depth that is left. -/
theorem parallel_reaching (room : Nat) {fallback : String} (hfallback : Unmarked fallback)
    (frame : Frame) {p : Pattern} (hp : r.entries.Reaches first args scope p) :
    Parallel scope (Shows Adorns) (reaching fallback (opening r.isolating room frame p))
      (reaching fallback (opening r.plain room frame p)) := by
  -- Both refuse a frame or both open it, for their contexts are the same so far.
  induction room generalizing fallback frame scope p with
  | zero =>
    intro c hscope
    by_cases hopen : frame ∈ c.stack
    · rw [run_reaching_cyclic hopen, run_reaching_cyclic hopen]
      exact ⟨.error hfallback, rfl, hscope⟩
    · rw [run_reaching_full hopen, run_reaching_full hopen]
      exact ⟨.error hfallback, rfl, hscope⟩
  | succ room ih =>
    have hsteps := ascends_adorned hunmarked hparsed
      (fun fallback frame scope p hp hfallback => ih hfallback frame hp) hp
    have hpattern := hsteps.of_pattern p fun _ hnode => hnode
    intro c hscope
    by_cases hopen : frame ∈ c.stack
    · rw [run_reaching_cyclic hopen, run_reaching_cyclic hopen]
      exact ⟨.error hfallback, rfl, hscope⟩
    · rw [run_reaching_free hopen, run_reaching_free hopen]
      obtain ⟨hresult, hcontext, hscope⟩ := hpattern.inFrame frame c hscope
      exact ⟨.ok hresult, hcontext, hscope⟩

end Run

end Ascends

/-- With isolation, the text of a message or attribute is the one without it, with marks added that
are properly nested, and the errors are the same. No marks may be in what the text is made of: the
texts of patterns, the values that placeables write by themselves, and the requested name. -/
theorem resolve_adorns (r : Resolver) (id : String) (attr : Option String)
    (args : Option Arguments) (hparsed : r.entries.Parsed)
    (hselectors : ∀ selector variants, .select selector variants ∈ r.entries.nodes →
      ∀ id attr arguments, selector ≠ .termRef id attr arguments)
    (harguments : ∀ name arguments, .call name arguments ∈ r.entries.nodes →
      ∀ e ∈ arguments.positional, e.Direct)
    (htexts : ∀ q, .pattern q ∈ r.entries.nodes → ∀ value, .text value ∈ q → Unmarked value)
    (hid : Unmarked id) (hattr : ∀ a ∈ attr, Unmarked a)
    (hvalues : ∀ scope q e, r.entries.ReachesInside (.message id attr) args scope q →
      .placeable e ∈ q → e.isLeaf → ∀ value, r.valueIn scope e = .ok value →
        Unmarked (r.valueText value)) :
    Balanced (r.isolating.resolve id attr args).1 ∧
      withoutMarks (r.isolating.resolve id attr args).1 = (r.plain.resolve id attr args).1 ∧
      (r.isolating.resolve id attr args).2 = (r.plain.resolve id attr args).2 := by
  have hunmarked : r.MarksNothing (.message id attr) args :=
    ⟨hselectors, harguments, htexts, hvalues⟩
  have hopen : Parallel args (Shows Adorns)
      (r.isolating.openMessage (r.isolating.opening r.maxDepth) id attr)
      (r.plain.openMessage (r.plain.opening r.maxDepth) id attr) :=
    parallel_openMessage hid hattr fun p fallback hp hfallback =>
      parallel_reaching hunmarked hparsed r.maxDepth hfallback _
        (.first (pattern?_of_messagePattern hp))
  obtain ⟨hresult, hcontext, -⟩ := hopen (r.start args) rfl
  have hstart : r.isolating.start args = r.start args ∧ r.plain.start args = r.start args :=
    ⟨rfl, rfl⟩
  have hdepth : r.isolating.maxDepth = r.maxDepth ∧ r.plain.maxDepth = r.maxDepth := ⟨rfl, rfl⟩
  rw [resolve_eq, resolve_eq, hstart.1, hstart.2, hdepth.1, hdepth.2, ← hcontext]
  have hshown := adorns_shown hresult
  exact ⟨hshown.balanced, hshown.plain, rfl⟩

/-- A message with a reference inside which a value is isolated, and with a call that fails. -/
def nestingSource : String :=
  "a = x \x7b b \x7d \x7b NUMBER($n) \x7d\nb = \x7b $n ->\n *[o] y \x7b $n \x7d\n \x7d\n"

/-- A message in a message and a call that fails, with marks and without. -/
theorem resolve_adorns_nesting :
    (ofSource nestingSource).isolating.resolve "a" none (some [("n", .string "v")]) =
        ("x \u2068y \u2068v\u2069\u2069 \u2068\x7bNUMBER()\x7d\u2069",
          [.functionFailed "NUMBER" (.invalidArgument 0 "a number")]) ∧
      Balanced "x \u2068y \u2068v\u2069\u2069 \u2068\x7bNUMBER()\x7d\u2069" ∧
      (ofSource nestingSource).plain.resolve "a" none (some [("n", .string "v")]) =
        ("x y v \x7bNUMBER()\x7d", [.functionFailed "NUMBER" (.invalidArgument 0 "a number")]) := by
  have hmarked : (ofSource nestingSource).isolating.resolve "a" none
      (some [("n", .string "v")]) =
        ("x \u2068y \u2068v\u2069\u2069 \u2068\x7bNUMBER()\x7d\u2069",
          [.functionFailed "NUMBER" (.invalidArgument 0 "a number")]) := by decide +kernel
  have herased : withoutMarks "x \u2068y \u2068v\u2069\u2069 \u2068\x7bNUMBER()\x7d\u2069" =
      "x y v \x7bNUMBER()\x7d" := by decide +kernel
  have hselectors : ∀ select ∈ (ofSource nestingSource).entries.nodes.filterMap Node.select?,
      select.1.Direct := by decide +kernel
  have harguments : ∀ call ∈ (ofSource nestingSource).entries.nodes.filterMap Node.call?,
      ∀ e ∈ call.2.positional, e.Direct := by decide +kernel
  have htexts : ∀ q ∈ (ofSource nestingSource).entries.nodes.filterMap Node.pattern?,
      ∀ value ∈ q.filterMap PatternElement.text?, Unmarked value := by decide +kernel
  have hleaves : ∀ scope ∈ (ofSource nestingSource).entries.scopes (some [("n", .string "v")]),
      ∀ e ∈ (ofSource nestingSource).entries.placed, e.isLeaf →
        ((ofSource nestingSource).valueIn scope e).toOption.all fun value =>
          decide (Unmarked ((ofSource nestingSource).valueText value)) := by decide +kernel
  obtain ⟨hbalanced, hplain, herrors⟩ := resolve_adorns (ofSource nestingSource) "a" none
    (some [("n", .string "v")]) (parsed_entries_ofSource _)
    -- Each condition on reached nodes is one on all nodes of the table, of which there are finitely
    -- many.
    (fun selector variants h id attr arguments heq => by
      have hdirect := hselectors (selector, variants) (List.mem_filterMap.mpr ⟨_, h, rfl⟩)
      subst heq
      exact Expression.not_direct_termRef hdirect)
    (fun name arguments h =>
      harguments (name, arguments) (List.mem_filterMap.mpr ⟨_, h, rfl⟩))
    (fun q h value hvalue => htexts q (List.mem_filterMap.mpr ⟨_, h, rfl⟩) value
      (List.mem_filterMap.mpr ⟨_, hvalue, rfl⟩))
    (by decide) (by rintro _ ⟨⟩)
    (fun scope q e hreach he hleaf value hvalue => by
      have h := hleaves scope hreach.scope_mem e (hreach.mem_placed he) hleaf
      rw [hvalue] at h
      exact of_decide_eq_true h)
  rw [hmarked] at hbalanced hplain herrors
  exact ⟨hmarked, hbalanced, Prod.ext (hplain.symm.trans herased) herrors.symm⟩

end Resolver

end Phrasebook
