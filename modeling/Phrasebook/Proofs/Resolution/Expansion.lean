import Phrasebook.Proofs.Resolution.Reachable

/-!
# The length of what is written

A placeable that is counted pays for what is written in its place: a text that it writes by itself,
or the text elements of the one pattern that it enters for its text. References may fan out as they
like, but every pattern that is entered is paid for by another placeable.
-/

namespace Phrasebook

/-- The total length of the text elements of a pattern. -/
def Pattern.textLength : Pattern → Nat
  | [] => 0
  | .text value :: rest => value.length + textLength rest
  | .placeable _ :: rest => textLength rest

/-- How many placeables may still be counted. -/
def Context.left (c : Context) : Nat := c.maxPlaceables - c.placeables

/-- Where a placeable is counted, one less is left. -/
theorem Context.left_countPlaceable (c : Context) :
    c.countPlaceable.left ≤ c.left ∧
      (c.countPlaceable.exhausted = false → c.countPlaceable.left + 1 ≤ c.left) := by
  rw [Context.left, Context.left]
  by_cases h : c.exhausted = true
  · rw [countPlaceable_of_exhausted h]
    exact ⟨Nat.le_refl _, fun hgoing => by rw [h] at hgoing; cases hgoing⟩
  · rw [Bool.not_eq_true] at h
    rcases Nat.lt_or_ge c.placeables c.maxPlaceables with hlt | hle
    · rw [countPlaceable_of_lt h hlt]
      exact ⟨by simp only; omega, fun _ => by simp only; omega⟩
    · rw [countPlaceable_of_le h hle]
      exact ⟨by simp only; omega, fun hgoing => by cases hgoing⟩

namespace Resolution

variable {α β : Type} {K base : Nat} {size : α → Nat} {m : Resolution α} {c : Context}

/-- At `K` for each placeable that was counted, and with `base` to begin with, a run that began in
`c` can pay for the size of its result. -/
structure Paid (K base : Nat) (size : α → Nat) (c : Context) (run : α × Context) : Prop where
  cost : size run.1 + K * run.2.left ≤ base + K * c.left
  left : run.2.left ≤ c.left
  scope : run.2.scope = c.scope
  maxPlaceables : run.2.maxPlaceables = c.maxPlaceables

/-- With the variables of `scope` in sight, every run is paid for. -/
def Pays (scope : Option Arguments) (K base : Nat) (size : α → Nat) (m : Resolution α) : Prop :=
  ∀ c, c.scope = scope → Paid K base size c (m.run c)

/-- With more to begin with, a run is paid for too. -/
theorem Paid.mono {base' : Nat} {run : α × Context} (h : Paid K base size c run)
    (hbase : base ≤ base') : Paid K base' size c run :=
  ⟨h.cost.trans (Nat.add_le_add_right hbase _), h.left, h.scope, h.maxPlaceables⟩

/-- What only records errors pays with what it has to begin with. -/
theorem paid_of_errors {a : α} (hsize : size a ≤ base) (errors : List ResolutionError) :
    Paid K base size c (a, { c with errors := errors }) :=
  ⟨Nat.add_le_add_right hsize _, Nat.le_refl _, rfl, rfl⟩

/-- What changes nothing pays with what it has to begin with. -/
theorem paid_self {a : α} (hsize : size a ≤ base) : Paid K base size c (a, c) :=
  paid_of_errors hsize c.errors

/-- What is made of a result is paid for at its own size. -/
theorem Pays.map {scope : Option Arguments} {f : α → β} {size : β → Nat}
    (h : Pays scope K base (fun a => size (f a)) m) :
    Pays scope K base size (return f (← m)) := fun c hscope =>
  have hpaid := h c hscope
  ⟨hpaid.cost, hpaid.left, hpaid.scope, hpaid.maxPlaceables⟩

/-- A term is paid for if it is so with its own variables in sight. -/
theorem Pays.withScope {scope : Arguments} (h : Pays (some scope) K base size m)
    (outer : Option Arguments) : Pays outer K base size (withScope scope m) := by
  intro c _
  have hpaid := h (c.child scope) rfl
  have hleft : ((Resolution.withScope scope m).run c).2.left =
      (m.run (c.child scope)).2.left := by
    rw [Context.left, Context.left, hpaid.maxPlaceables]
    rfl
  exact
    { cost := by
        rw [hleft]
        exact hpaid.cost
      left := by
        rw [hleft]
        exact hpaid.left
      scope := rfl
      maxPlaceables := rfl }

/-- A frame is paid for if its inside is. -/
theorem Pays.inFrame {scope : Option Arguments} (h : Pays scope K base size m) (frame : Frame) :
    Pays scope K base size (inFrame frame m) := fun c hscope =>
  have hpaid := h { c with stack := frame :: c.stack } hscope
  ⟨hpaid.cost, hpaid.left, hpaid.scope, hpaid.maxPlaceables⟩

end Resolution

namespace Resolver

open Resolution

variable {r : Resolver} {o : Opening} {scope : Option Arguments} {K : Nat}

/-- The length of what is written for the result of an expression. -/
def resultLength (r : Resolver) (result : Except String Value) : Nat := (r.resultText result).length

/-- The length of what is shown for the result of a reference. -/
def shownLength (result : Except String String) : Nat := (shown result).length

/-- The length of what an expression writes by itself. -/
def leafLength (r : Resolver) (scope : Option Arguments) (e : Expression) : Nat :=
  if e.isLeaf then (r.leafText scope e).length else 0

/-- A leaf has the length of what it writes. -/
theorem leafLength_of_isLeaf {e : Expression} (h : e.isLeaf) :
    r.leafLength scope e = (r.leafText scope e).length :=
  if_pos h

private theorem pays_elements_text (value : String) {rest : Pattern}
    (hrest : Pays scope K rest.textLength String.length (r.elements o false rest)) :
    Pays scope K (Pattern.textLength (.text value :: rest)) String.length
      (r.elements o false (.text value :: rest)) := by
  intro c hscope
  cases hexhausted : c.exhausted with
  | true =>
    rw [run_elements_of_exhausted hexhausted]
    exact paid_self (Nat.zero_le _)
  | false =>
    rw [run_elements_text hexhausted]
    have hpaid := hrest c hscope
    have hcost := hpaid.cost
    refine ⟨?_, hpaid.left, hpaid.scope, hpaid.maxPlaceables⟩
    simp only [String.length_append, Pattern.textLength]
    omega

/-- The count of a placeable pays `K`, which covers what is written for it; the rest pays for
itself. -/
private theorem pays_elements_placeable {inner : Expression} {rest : Pattern}
    (hinner : Pays scope K K r.resultLength (r.expression o inner))
    (hrest : Pays scope K rest.textLength String.length (r.elements o false rest)) :
    Pays scope K (Pattern.textLength (.placeable inner :: rest)) String.length
      (r.elements o false (.placeable inner :: rest)) := by
  intro c hscope
  obtain ⟨hcount, hcounted⟩ := c.left_countPlaceable
  have hsight : c.countPlaceable.scope = c.scope := (intact_count c).scope
  have hlimit : c.countPlaceable.maxPlaceables = c.maxPlaceables := (intact_count c).maxPlaceables
  cases hexhausted : c.countPlaceable.exhausted with
  | true =>
    rw [run_elements_full hexhausted]
    have hprice := Nat.mul_le_mul_left K hcount
    exact ⟨by simp only [String.length_empty]; omega, hcount, hsight, hlimit⟩
  | false =>
    have hprice := Nat.mul_le_mul_left K (hcounted hexhausted)
    have hpaid := hinner c.countPlaceable (hsight.trans hscope)
    rw [run_elements_placeable hexhausted]
    generalize (r.expression o inner).run c.countPlaceable = run at hpaid
    obtain ⟨new, hwrite⟩ := r.run_writeResult run.1 run.2
    have hscope' : run.2.scope = c.scope := hpaid.scope.trans hsight
    have hmore := hrest { run.2 with errors := run.2.errors ++ new } (hscope'.trans hscope)
    simp only [hwrite, Bool.false_and, Bool.false_eq_true, if_false]
    generalize (r.elements o false rest).run _ = more at hmore ⊢
    refine ⟨?_, hmore.left.trans (hpaid.left.trans hcount), hmore.scope.trans hscope',
      hmore.maxPlaceables.trans (hpaid.maxPlaceables.trans hlimit)⟩
    have hcost : (r.resultText run.1).length + K * run.2.left ≤
        K + K * c.countPlaceable.left := hpaid.cost
    have hcostMore : more.1.length + K * more.2.left ≤
        Pattern.textLength rest + K * run.2.left := hmore.cost
    simp only [String.length_append, Pattern.textLength]
    rw [Nat.mul_succ] at hprice
    omega

/-- Beyond the text elements of a pattern, its placeables pay for themselves. -/
theorem pays_elements {p : Pattern}
    (hp : ∀ e, .placeable e ∈ p → Pays scope K K r.resultLength (r.expression o e)) :
    Pays scope K p.textLength String.length (r.elements o false p) := by
  induction p with
  | nil =>
    rw [elements]
    exact fun c _ => paid_self (Nat.le_refl 0)
  | cons element rest ih =>
    have hrest := ih fun e he => hp e (List.mem_cons_of_mem _ he)
    cases element with
    | text value => exact pays_elements_text value hrest
    | placeable inner => exact pays_elements_placeable (hp inner List.mem_cons_self) hrest

/-- A direct leaf is paid for by its length. -/
theorem pays_direct {e : Expression} (hdirect : e.Direct) (hleaf : e.isLeaf) :
    Pays scope K (max K (r.leafLength scope e)) r.resultLength (r.expression o e) := by
  rintro c rfl
  obtain ⟨new, hrun⟩ := run_of_steady (steady_direct rfl rfl hdirect) c
  rw [hrun]
  refine paid_of_errors ?_ _
  rw [resultLength, leafLength_of_isLeaf hleaf, leafText]
  exact Nat.le_max_right _ _

/-- A text has the same length as a value. -/
theorem resultLength_map (result : Except String String) :
    r.resultLength (result.map .string) = shownLength result := by
  cases result <;> rfl

/-- A fallback is paid for by its length. -/
theorem paid_fallback {c : Context} (fallback : String) (errors : List ResolutionError) :
    Paid K (max K fallback.length) shownLength c
      (.error fallback, { c with errors := errors }) :=
  have hsize : shownLength (.error fallback) ≤ max K fallback.length := Nat.le_max_right _ _
  paid_of_errors hsize errors

/-- A message is paid for if its pattern is. -/
theorem pays_openMessage {id : String} {attr : Option String}
    (hopen : ∀ p fallback, r.messagePattern id attr = .ok p →
      Pays scope K (max K fallback.length) shownLength
        (reaching fallback (o (.message id attr) p))) :
    Pays scope K (max K (braced (referenceName id attr)).length) shownLength
      (r.openMessage o id attr) := by
  cases hp : r.messagePattern id attr with
  | ok p =>
    rw [openMessage_of_ok hp]
    exact hopen p _ hp
  | error e =>
    rw [openMessage_of_error hp]
    intro c _
    rw [run_report_error]
    exact paid_fallback _ _

/-- A term is paid for if its pattern is. -/
theorem pays_openTerm {id : String} {attr : Option String} {inside : Arguments}
    (hopen : ∀ p fallback, r.termPattern id attr = .ok p →
      Pays (some inside) K (max K fallback.length) shownLength
        (reaching fallback (o (.term id attr) p))) :
    Pays scope K (max K (braced ("-" ++ referenceName id attr)).length) shownLength
      (r.openTerm o id attr inside) := by
  cases hp : r.termPattern id attr with
  | ok p =>
    rw [openTerm_of_ok hp]
    exact (hopen p _ hp).withScope scope
  | error e =>
    rw [openTerm_of_error hp]
    intro c _
    rw [run_report_error]
    exact paid_fallback _ _

/-- The selector writes nothing, and the variant is the one pattern that is entered for the text. -/
theorem pays_select {selector : Expression} {variants : List Variant} {T base : Nat} (hT : T ≤ K)
    (hne : variants ≠ [])
    (hselector : Pays scope K base r.resultLength (r.expression o selector))
    (hvariants : ∀ v ∈ variants, Pays scope K T String.length (r.pattern o v.value)) :
    Pays scope K K r.resultLength (r.expression o (.select selector variants)) := by
  intro c hscope
  have hpaid := hselector c hscope
  rw [expression_select, run_bind]
  generalize (r.expression o selector).run c = run at hpaid
  obtain ⟨v, hv⟩ := Variant.exists_chosen? hne r.locale run.1.toOption
  rw [hv]
  have hvariant := hvariants v (Variant.mem_of_chosen? hv) run.2 (hpaid.scope.trans hscope)
  have hprice := Nat.mul_le_mul_left K hpaid.left
  have hcost := hvariant.cost
  refine ⟨?_, hvariant.left.trans hpaid.left, hvariant.scope.trans hpaid.scope,
    hvariant.maxPlaceables.trans hpaid.maxPlaceables⟩
  change ((r.pattern o v.value).run run.2).1.length +
    K * ((r.pattern o v.value).run run.2).2.left ≤ _
  omega

section Bounds

variable {first : Frame} {args : Option Arguments} {T A : Nat}

/-- No pattern has more text than `T`, and no placeable writes more than `A` by itself. -/
structure Bounded (r : Resolver) (first : Frame) (args : Option Arguments) (T A : Nat) : Prop where
  text : ∀ q, .pattern q ∈ r.entries.nodes → Pattern.textLength q ≤ T
  leaf : ∀ scope q e, r.entries.ReachesInside first args scope q → .placeable e ∈ q → e.isLeaf →
    (r.leafText scope e).length ≤ A

/-- What a leaf of a reached pattern writes is within the bound. -/
theorem Bounded.leafLength_le (h : r.Bounded first args T A) {q : Pattern} {e : Expression}
    (hq : r.entries.ReachesInside first args scope q) (he : .placeable e ∈ q) :
    r.leafLength scope e ≤ A := by
  rw [leafLength]
  split
  · exact h.leaf scope q e hq he ‹_›
  · exact Nat.zero_le A

/-- Expressions and patterns are paid for if the references in them are, constructor by
constructor. -/
theorem ascends_pays (hbounds : r.Bounded first args T A) (hisolating : r.useIsolating = false)
    (hparsed : r.entries.Parsed) (hcalls : r.entries.CallFree)
    (hopen : ∀ fallback frame scope p, r.entries.Reaches first args scope p →
      Pays scope (T + A) (max (T + A) fallback.length) shownLength (reaching fallback (o frame p)))
    {p : Pattern} (hp : r.entries.Reaches first args scope p) :
    Ascends (· ∈ (Outline.ofPattern p).nodes)
      (fun e => Pays scope (T + A) (max (T + A) (r.leafLength scope e)) r.resultLength
        (r.expression o e))
      fun q => Pays scope (T + A) T String.length (r.pattern o q) where
  string l := pays_direct (Expression.direct_string l) rfl
  number l := pays_direct (Expression.direct_number l) rfl
  variableRef name _ _ := pays_direct (Expression.direct_variableRef name) rfl
  messageRef id attr hnode _ _ := by
    have hlength : r.leafLength scope (.messageRef id attr) =
        (braced (referenceName id attr)).length := by
      rw [leafLength_of_isLeaf rfl, leafText_messageRef]
    rw [expression, hlength]
    refine Pays.map ?_
    simp only [resultLength_map]
    exact pays_openMessage fun q fallback hq =>
      hopen fallback _ scope q (.message hp hnode (pattern?_of_messagePattern hq))
  termRef id attr arguments hnode _ _ := by
    have hlength : r.leafLength scope (.termRef id attr arguments) =
        (braced ("-" ++ referenceName id attr)).length := by
      rw [leafLength_of_isLeaf rfl, leafText_termRef]
    rw [expression_termRef, hlength]
    refine Pays.map ?_
    simp only [resultLength_map]
    exact pays_openTerm fun q fallback hq =>
      hopen fallback _ _ q (.term hp hnode (pattern?_of_termPattern hq))
  -- There are no calls, so no text comes from outside of the patterns and the arguments.
  call name arguments hnode _ := by
    cases hcalls _ (hp.mem_nodes hnode)
  -- A selection writes only its variant: nothing of its own is added to the bound.
  select selector variants hnode hselector hvariants := by
    have hlawful := hparsed.lawful _ (hp.mem_nodes hnode)
    have hlength : r.leafLength scope (.select selector variants) = 0 := rfl
    rw [hlength, Nat.max_zero]
    refine pays_select (Nat.le_add_right T A) ?_ hselector hvariants
    rintro rfl
    cases hlawful.2
  placeable inner hinner := by
    have hlength : r.leafLength scope (.placeable inner) = r.leafLength scope inner := by
      rw [leafLength, leafLength, leafText_placeable, Expression.isLeaf]
    rw [expression, hlength]
    exact hinner
  pattern q hnode hq := by
    rw [pattern, hisolating, Bool.false_and]
    have htext := hbounds.text q (hp.mem_nodes hnode)
    refine fun c hscope => (pays_elements (fun e he => ?_) c hscope).mono htext
    have hleaf := hbounds.leafLength_le ⟨p, hp, hnode⟩ he
    have hinner := hq e he
    -- A leaf writes no more than the share of its placeable.
    rwa [Nat.max_eq_left (hleaf.trans (Nat.le_add_left A T))] at hinner

section Run

variable (hbounds : r.Bounded first args T A) (hisolating : r.useIsolating = false)
  (hparsed : r.entries.Parsed) (hcalls : r.entries.CallFree)

include hbounds hisolating hparsed hcalls

/-- Opening a frame is paid for, and so is the fallback where it cannot be opened. -/
theorem pays_reaching (room : Nat) (fallback : String) (frame : Frame) {scope : Option Arguments}
    {p : Pattern} (hp : r.entries.Reaches first args scope p) :
    Pays scope (T + A) (max (T + A) fallback.length) shownLength
      (reaching fallback (opening r room frame p)) := by
  induction room generalizing fallback frame scope p with
  | zero =>
    intro c _
    by_cases hopen : frame ∈ c.stack
    · rw [run_reaching_cyclic hopen]
      exact paid_fallback _ _
    · rw [run_reaching_full hopen]
      exact paid_fallback _ _
  | succ room ih =>
    have hsteps := ascends_pays hbounds hisolating hparsed hcalls
      (fun fallback frame scope p => ih fallback frame) hp
    have hpattern := hsteps.of_pattern p fun _ hnode => hnode
    intro c hscope
    by_cases hopen : frame ∈ c.stack
    · rw [run_reaching_cyclic hopen]
      exact paid_fallback _ _
    · rw [run_reaching_free hopen]
      have hpaid := hpattern.inFrame frame c hscope
      have hT : T ≤ max (T + A) fallback.length :=
        (Nat.le_add_right T A).trans (Nat.le_max_left _ _)
      exact ⟨hpaid.cost.trans (Nat.add_le_add_right hT _), hpaid.left, hpaid.scope,
        hpaid.maxPlaceables⟩

/-- A pattern that is reached is paid for with the longest text of one pattern. -/
theorem pays_pattern (room : Nat) {scope : Option Arguments} {p : Pattern}
    (hp : r.entries.Reaches first args scope p) :
    Pays scope (T + A) T String.length (pattern r (opening r room) p) :=
  (ascends_pays hbounds hisolating hparsed hcalls
    (fun fallback frame _ _ => pays_reaching hbounds hisolating hparsed hcalls room fallback frame)
    hp).of_pattern p fun _ hnode => hnode

end Run

end Bounds

/-- The text of a message or attribute is no longer than the text of one pattern, and twice that and
one piece of text more for each placeable that may be written. Here `T` bounds the text elements of
each pattern, those of variants counted by themselves, and `A` what a placeable can write without
entering a pattern: a literal, a variable, or a fallback. -/
theorem length_resolve_le (r : Resolver) (hisolating : r.useIsolating = false)
    (hparsed : r.entries.Parsed) (hcalls : r.entries.CallFree) (hdepth : 1 ≤ r.maxDepth)
    {id : String} {attr : Option String} {p : Pattern} (hp : r.messagePattern id attr = .ok p)
    (args : Option Arguments) {T A : Nat}
    (hT : ∀ q, .pattern q ∈ r.entries.nodes → Pattern.textLength q ≤ T)
    (hA : ∀ scope q e, r.entries.ReachesInside (.message id attr) args scope q →
      .placeable e ∈ q → e.isLeaf → (r.leafText scope e).length ≤ A) :
    (r.resolve id attr args).1.length ≤
      (1 + 2 * r.maxPlaceables) * T + r.maxPlaceables * A := by
  obtain ⟨room, hroom⟩ : ∃ room, r.maxDepth = room + 1 := ⟨r.maxDepth - 1, by omega⟩
  have hpaid := (pays_pattern ⟨hT, hA⟩ hisolating hparsed hcalls room
    (.first (pattern?_of_messagePattern hp))).inFrame (.message id attr) (r.start args) rfl
  have hlength : (r.resolve id attr args).1.length ≤ T + (T + A) * r.maxPlaceables := by
    rw [resolve_eq, hroom, openMessage_of_ok hp, run_reaching_free List.not_mem_nil]
    exact (Nat.le_add_right _ _).trans hpaid.cost
  calc (r.resolve id attr args).1.length
      ≤ T + (T + A) * r.maxPlaceables := hlength
    _ = (1 + r.maxPlaceables) * T + r.maxPlaceables * A := by
      rw [Nat.add_mul, Nat.add_mul, Nat.one_mul, Nat.mul_comm T, Nat.mul_comm A, Nat.add_assoc]
    _ ≤ (1 + 2 * r.maxPlaceables) * T + r.maxPlaceables * A :=
      Nat.add_le_add_right (Nat.mul_le_mul_right T (by omega)) _

/-- A message that refers twice to another one, in which a variant is chosen. -/
def doublingSource : String :=
  "a = x\x7b b \x7d\x7b b \x7d\nb = \x7b $n ->\n *[o] y\x7b $n \x7d\n \x7d\n"

/-- A message that refers to another one twice stays within the bound. -/
theorem length_resolve_le_doubling :
    ((ofSource doublingSource).resolve "a" none (some [("n", .string "zz")])).1 = "xyzzyzz" ∧
      "xyzzyzz".length ≤ (1 + 2 * 9) * 1 + 9 * 3 := by
  have htext : ((ofSource doublingSource).resolve "a" none (some [("n", .string "zz")])).1 =
      "xyzzyzz" := by decide +kernel
  have htexts : ∀ q ∈ (ofSource doublingSource).entries.nodes.filterMap Node.pattern?,
      Pattern.textLength q ≤ 1 := by decide +kernel
  have hleaves : ∀ scope ∈ (ofSource doublingSource).entries.scopes (some [("n", .string "zz")]),
      ∀ e ∈ (ofSource doublingSource).entries.placed, e.isLeaf →
        ((ofSource doublingSource).leafText scope e).length ≤ 3 := by decide +kernel
  have hfound : ((ofSource doublingSource).messagePattern "a" none).toOption.isSome := by
    decide +kernel
  cases hp : (ofSource doublingSource).messagePattern "a" none with
  | error e =>
    rw [hp] at hfound
    cases hfound
  | ok p =>
    have hlength := length_resolve_le (ofSource doublingSource) rfl (parsed_entries_ofSource _)
      (by decide +kernel) (by decide) hp (some [("n", .string "zz")]) (T := 1) (A := 3)
      (fun q hq => htexts q (List.mem_filterMap.mpr ⟨_, hq, rfl⟩))
      fun scope q e hreach he => hleaves scope hreach.scope_mem e (hreach.mem_placed he)
    rw [htext] at hlength
    exact ⟨htext, hlength⟩

end Resolver

end Phrasebook
