import Mathlib.Data.List.Chain
import Mathlib.Data.List.Nodup
import Mathlib.Logic.Relation
import Phrasebook.Proofs.Resolution.Lockstep

/-!
# The graph of references

The values and attributes of the messages and terms of a table refer to one another. The frames that
are open while a message is resolved are a path of this graph that begins at the message and meets
nothing twice. A frame that is open already therefore closes a cycle, and where there is no room for
another frame, there is a path that is too long.
-/

namespace Phrasebook

/-- What a reference to a message or term names. -/
def Node.target? : Node → Option Frame
  | .messageRef id part => some (.message id part)
  | .termRef id part _ => some (.term id part)
  | _ => none

namespace EntryTable

/-- The pattern that is resolved in a frame: a value or an attribute, if the table holds it. -/
def pattern? (table : EntryTable) : Frame → Option Pattern
  | .message id attr => (table.message? id).bind fun m => m.part? attr
  | .term id attr => (table.term? id).bind fun t => t.part? attr

/-- What the references in the pattern of a frame name. References among the arguments of a term do
not count: terms have no use for them. -/
def referenced (table : EntryTable) (f : Frame) : List Frame :=
  match table.pattern? f with
  | none => []
  | some p => ((Outline.ofPattern p).walk Outline.isPlainReference).filterMap Node.target?

/-- The pattern of `f` holds a reference to `g`, and `g` has a pattern. -/
def Refers (table : EntryTable) (f g : Frame) : Prop :=
  g ∈ table.referenced f ∧ (table.pattern? g).isSome

/-- A path of the graph that meets nothing twice. -/
structure Path (table : EntryTable) (path : List Frame) : Prop where
  nodes : ∀ f ∈ path, (table.pattern? f).isSome
  edges : path.IsChain table.Refers
  distinct : path.Nodup

/-- The frame `g` may be opened inside the given ones, of which the innermost comes first. -/
def Enters (table : EntryTable) (start : Frame) : List Frame → Frame → Prop
  | [], g => g = start ∧ (table.pattern? g).isSome
  | f :: _, g => table.Refers f g

/-- Frames that may be open inside each other, the innermost first. -/
inductive Trail (table : EntryTable) (start : Frame) : List Frame → Prop
  | nil : Trail table start []
  | push {S : List Frame} {g : Frame} :
    Trail table start S → table.Enters start S g → g ∉ S → Trail table start (g :: S)

variable {table : EntryTable} {start f g : Frame} {S : List Frame}

/-- What is entered has a pattern. -/
theorem Enters.isSome (h : table.Enters start S g) : (table.pattern? g).isSome := by
  cases S with
  | nil => exact h.2
  | cons f rest => exact h.2

/-- Every open frame is reached from the first one. -/
theorem Trail.from_start (h : table.Trail start S) :
    ∀ x ∈ S, Relation.ReflTransGen table.Refers start x := by
  induction h with
  | nil => intro x hx; cases hx
  | @push S g _ henters _ ih =>
    intro x hx
    rcases List.mem_cons.mp hx with rfl | hx
    · cases S with
      | nil => rw [henters.1]
      | cons f rest => exact (ih f List.mem_cons_self).tail henters
    · exact ih x hx

/-- The innermost frame is reached from every open one. -/
theorem Trail.to_innermost (h : table.Trail start (f :: S)) :
    ∀ x ∈ f :: S, Relation.ReflTransGen table.Refers x f := by
  induction S generalizing f with
  | nil =>
    intro x hx
    rw [List.mem_singleton.mp hx]
  | cons f' rest ih =>
    cases h with
    | push htrail henters _ =>
      intro x hx
      rcases List.mem_cons.mp hx with rfl | hx
      · exact .refl
      · exact (ih htrail x hx).tail henters

/-- The frames of a trail are a path, from the outermost one on. -/
theorem Trail.path (h : table.Trail start S) : table.Path S.reverse := by
  induction h with
  | nil => exact ⟨fun f hf => by simp at hf, by simp, by simp⟩
  | @push S g _ henters hnew ih =>
    refine ⟨fun f hf => ?_, ?_, ?_⟩
    · rcases List.mem_cons.mp (List.mem_reverse.mp hf) with rfl | hf
      · exact henters.isSome
      · exact ih.nodes f (List.mem_reverse.mpr hf)
    · refine List.isChain_reverse.mpr (List.isChain_cons.mpr ⟨fun f hf => ?_,
        List.isChain_reverse.mp ih.edges⟩)
      obtain ⟨rest, rfl⟩ := List.head?_eq_some_iff.mp hf
      exact henters
    · exact List.nodup_reverse.mpr (List.nodup_cons.mpr ⟨hnew, List.nodup_reverse.mp ih.distinct⟩)

/-- The outermost frame is the one that resolution begins with. -/
theorem Trail.outermost (h : table.Trail start (f :: S)) : (f :: S).reverse.head? = some start := by
  induction S generalizing f with
  | nil =>
    cases h with
    | push _ henters _ => rw [henters.1]; rfl
  | cons f' rest ih =>
    cases h with
    | push htrail _ _ =>
      have h := ih htrail
      rw [List.head?_reverse] at h ⊢
      rw [List.getLast?_cons_cons, h]

/-- A frame that is open and would be opened again is on a cycle. -/
theorem Trail.cycle (h : table.Trail start S) (henters : table.Enters start S g) (hopen : g ∈ S) :
    Relation.TransGen table.Refers g g := by
  cases S with
  | nil => cases hopen
  | cons f rest => exact .tail' (h.to_innermost g hopen) henters

end EntryTable

/-- The error tells the truth about the graph: what is cyclic is on a cycle that is reached from the
first frame, and where there is no room, there is a path of one more than `depth`. -/
def ResolutionError.Founded (table : EntryTable) (start : Frame) (depth : Nat) :
    ResolutionError → Prop
  | cyclicReference text => ∃ x : Frame, x.text = text ∧
    Relation.ReflTransGen table.Refers start x ∧ Relation.TransGen table.Refers x x
  | tooDeep _ => ∃ path, table.Path path ∧ path.head? = some start ∧ path.length = depth + 1
  | _ => True

/-- An error that is no limit needs no ground in the graph. -/
theorem ResolutionError.founded_of_isLimit {table : EntryTable} {start : Frame} {depth : Nat}
    {e : ResolutionError} (h : e.isLimit = false) : e.Founded table start depth := by
  cases e <;> trivial

namespace Resolver

open Resolution

variable {r : Resolver} {start : Frame} {S : List Frame} {α β : Type}

/-- The frames of `S` are open, and every error is founded. -/
structure OnTrail (r : Resolver) (start : Frame) (S : List Frame) (c : Context) : Prop where
  stack : c.stack = S
  maxDepth : c.maxDepth = r.maxDepth
  errors : ∀ e ∈ c.errors, e.Founded r.entries start r.maxDepth

/-- Where the frames of `S` are open, they stay open and every error stays founded. -/
def Keeps (r : Resolver) (start : Frame) (S : List Frame) (m : Resolution α) : Prop :=
  ∀ c, r.OnTrail start S c → r.OnTrail start S (m.run c).2

/-- A context stays on its trail if a founded error is recorded. -/
theorem OnTrail.report {c : Context} {e : ResolutionError} (h : r.OnTrail start S c)
    (he : e.Founded r.entries start r.maxDepth) : r.OnTrail start S (c.report e) where
  stack := h.stack
  maxDepth := h.maxDepth
  errors e' he' := by
    rcases List.mem_append.mp he' with he' | he'
    · exact h.errors e' he'
    · rw [List.mem_singleton.mp he']
      exact he

/-- Counting a placeable keeps to the trail. -/
theorem keeps_count : r.Keeps start S count := fun c h => by
  rw [run_count]
  rcases c.countPlaceable_cases with hcount | hcount | hcount <;> rw [hcount]
  · exact h
  · exact ⟨h.stack, h.maxDepth, h.errors⟩
  · have hreport := h.report (e := .tooManyPlaceables c.maxPlaceables) trivial
    exact ⟨hreport.stack, hreport.maxDepth, hreport.errors⟩

/-- What keeps to the trail passes along sequences. -/
theorem congruent_keeps (r : Resolver) (start : Frame) (S : List Frame) :
    Congruent fun m _ => r.Keeps start S m where
  pure _ _ h := h
  bind hm hf c h := hf _ _ (hm c h)
  report he _ h := h.report (ResolutionError.founded_of_isLimit he)
  exhausted _ h := h
  count := keeps_count

/-- Looking up a variable keeps to the trail. -/
theorem keeps_variableValue (name : String) : r.Keeps start S (variableValue name) := fun c h => by
  cases hlookup : c.lookup? name with
  | some value =>
    rw [run_variableValue_some hlookup]
    exact h
  | none =>
    rw [run_variableValue_none hlookup]
    exact h.report trivial

/-- A term keeps to the trail if it does so inside. -/
theorem Keeps.withScope {m : Resolution α} (hm : r.Keeps start S m) (scope : Arguments) :
    r.Keeps start S (withScope scope m) := fun c h =>
  have hinner := hm (c.child scope) ⟨h.stack, h.maxDepth, h.errors⟩
  ⟨hinner.stack, h.maxDepth, hinner.errors⟩

/-- A frame keeps to the trail if its inside keeps to the one that it makes longer. -/
theorem Keeps.inFrame {m : Resolution α} {g : Frame} (hm : r.Keeps start (g :: S) m) :
    r.Keeps start S (inFrame g m) := fun c h =>
  have hinner := hm { c with stack := g :: c.stack } ⟨by rw [h.stack], h.maxDepth, h.errors⟩
  ⟨by rw [run_inFrame, hinner.stack]; rfl, hinner.maxDepth, hinner.errors⟩

/-- A pattern that a message reference finds is that of its frame. -/
theorem pattern?_of_messagePattern {id : String} {attr : Option String} {p : Pattern}
    (h : r.messagePattern id attr = .ok p) : r.entries.pattern? (.message id attr) = some p := by
  obtain ⟨m, hmessage, hpart⟩ := messagePattern_ok h
  rw [EntryTable.pattern?, hmessage, Option.bind_some, hpart]

/-- A pattern that a term reference finds is that of its frame. -/
theorem pattern?_of_termPattern {id : String} {attr : Option String} {p : Pattern}
    (h : r.termPattern id attr = .ok p) : r.entries.pattern? (.term id attr) = some p := by
  obtain ⟨t, hterm, hpart⟩ := termPattern_ok h
  rw [EntryTable.pattern?, hterm, Option.bind_some, hpart]

/-- What a node refers to may be opened inside the frames of `S`, if it has a pattern. -/
def Allows (r : Resolver) (start : Frame) (S : List Frame) (node : Node) : Prop :=
  ∀ g, node.target? = some g → (r.entries.pattern? g).isSome → r.entries.Enters start S g

/-- An expression keeps to the trail if every reference that its frame has does. -/
theorem lockstep_keeps {o : Opening}
    (h : ∀ fallback g p, r.entries.pattern? g = some p → r.entries.Enters start S g →
      r.Keeps start S (reaching fallback (o g p))) :
    Lockstep r o o (r.Allows start S) fun m _ => r.Keeps start S m where
  toCongruent := congruent_keeps r start S
  variableValue _ := keeps_variableValue _
  openMessage huses := (congruent_keeps r start S).openMessage o o fun p fallback hp => by
    have hpattern := pattern?_of_messagePattern hp
    exact h fallback _ p hpattern (huses _ rfl (by rw [hpattern]; rfl))
  openTerm huses scope := (congruent_keeps r start S).openTerm o o fun p fallback hp => by
    have hpattern := pattern?_of_termPattern hp
    exact (h fallback _ p hpattern (huses _ rfl (by rw [hpattern]; rfl))).withScope scope

/-- Opening a frame that the graph leads to goes on along the trail, or records an error that tells
the truth about the graph. -/
theorem keeps_reaching {room : Nat} (htrail : r.entries.Trail start S)
    (hroom : room + S.length = r.maxDepth) (fallback : String) {g : Frame} {p : Pattern}
    (hp : r.entries.pattern? g = some p) (henters : r.entries.Enters start S g) :
    r.Keeps start S (reaching fallback (opening r room g p)) := by
  -- What is taken from the room is added to the trail, so that the two make up the limit together.
  induction room generalizing S g p fallback with
  | zero =>
    intro c h
    by_cases hopen : g ∈ S
    · rw [run_reaching_cyclic (by rwa [h.stack])]
      exact h.report ⟨g, rfl, htrail.from_start g hopen, htrail.cycle henters hopen⟩
    · rw [run_reaching_full (by rwa [h.stack])]
      have hlong := EntryTable.Trail.push htrail henters hopen
      exact h.report ⟨_, hlong.path, hlong.outermost, by simp; omega⟩
  | succ room ih =>
    intro c h
    by_cases hopen : g ∈ S
    · rw [run_reaching_cyclic (by rwa [h.stack])]
      exact h.report ⟨g, rfl, htrail.from_start g hopen, htrail.cycle henters hopen⟩
    · have hlong := EntryTable.Trail.push htrail henters hopen
      have hsteps : Lockstep r (opening r room) (opening r room) (r.Allows start (g :: S))
          fun m _ => r.Keeps start (g :: S) m :=
        lockstep_keeps fun fallback g p => ih hlong (by simp; omega) fallback
      have hpattern : r.Keeps start (g :: S) (pattern r (opening r room) p) :=
        hsteps.pattern p fun node hnode x htarget hsome => by
          refine ⟨?_, hsome⟩
          rw [EntryTable.referenced, hp]
          exact List.mem_filterMap.mpr ⟨node, hnode, htarget⟩
      rw [run_reaching_free (by rwa [h.stack])]
      exact hpattern.inFrame c h

/-- Every error of a resolution is founded in the graph. -/
theorem founded_resolve (r : Resolver) (id : String) (attr : Option String)
    (args : Option Arguments) : ∀ e ∈ (r.resolve id attr args).2,
      e.Founded r.entries (.message id attr) r.maxDepth := by
  have hkeeps : r.Keeps (.message id attr) [] (r.openMessage (r.opening r.maxDepth) id attr) :=
    (congruent_keeps r _ []).openMessage _ (r.opening r.maxDepth) fun p fallback hp => by
      have hpattern := pattern?_of_messagePattern hp
      exact keeps_reaching .nil rfl fallback hpattern ⟨rfl, by rw [hpattern]; rfl⟩
  rw [resolve_eq]
  exact (hkeeps (r.start args) ⟨rfl, rfl, fun e he => by cases he⟩).errors

/-- A cyclic reference is reported only where the graph has a cycle that is reached from the
message, and too deep references only where a path from the message is longer than the limit. Where
the graph has neither, no such error is reported. -/
theorem limits_founded (r : Resolver) (id : String) (attr : Option String)
    (args : Option Arguments) :
    (∀ text, .cyclicReference text ∈ (r.resolve id attr args).2 →
      ∃ x : Frame, x.text = text ∧
        Relation.ReflTransGen r.entries.Refers (.message id attr) x ∧
        Relation.TransGen r.entries.Refers x x) ∧
    (∀ limit, .tooDeep limit ∈ (r.resolve id attr args).2 →
      ∃ path, r.entries.Path path ∧ path.head? = some (.message id attr) ∧
        path.length = r.maxDepth + 1) ∧
    ((∀ x, Relation.ReflTransGen r.entries.Refers (.message id attr) x →
        ¬ Relation.TransGen r.entries.Refers x x) →
      (∀ path, r.entries.Path path → path.head? = some (.message id attr) →
        path.length ≤ r.maxDepth) →
      (∀ text, .cyclicReference text ∉ (r.resolve id attr args).2) ∧
        ∀ limit, .tooDeep limit ∉ (r.resolve id attr args).2) := by
  have hfounded := founded_resolve r id attr args
  refine ⟨fun text h => hfounded _ h, fun limit h => hfounded _ h, fun hacyclic hshort => ?_⟩
  constructor
  · intro text h
    obtain ⟨x, -, hreached, hcycle⟩ := hfounded _ h
    exact hacyclic x hreached hcycle
  · intro limit h
    obtain ⟨path, hpath, hhead, hlength⟩ := hfounded _ h
    have hle := hshort path hpath hhead
    omega

/-- A resolver for messages that refer to one another: `top` to `twice`, which refers to `leaf` two
times, and `loop` to itself. No more than two frames may be open. -/
def branching : Resolver where
  entries := ((({} : EntryTable).insertMessage
    ⟨"leaf", some [.text "x"], [], none, ⟨0, 0⟩⟩).insertMessage
    ⟨"twice", some [.placeable (.messageRef "leaf" none), .placeable (.messageRef "leaf" none)], [],
      none, ⟨0, 0⟩⟩).insertMessage
    ⟨"top", some [.placeable (.messageRef "twice" none)], [], none, ⟨0, 0⟩⟩ |>.insertMessage
    ⟨"loop", some [.placeable (.messageRef "loop" none)], [], none, ⟨0, 0⟩⟩
  functions := {}
  locale := "en"
  useIsolating := false
  maxDepth := 2
  maxPlaceables := 9

/-- A loop is reported with its cycle, a chain with a path that is too long, and two references to
one message are no cycle. -/
theorem limits_founded_branching :
    (∃ x : Frame, x.text = "loop" ∧
        Relation.ReflTransGen branching.entries.Refers (.message "loop" none) x ∧
        Relation.TransGen branching.entries.Refers x x) ∧
      (∃ path, branching.entries.Path path ∧ path.head? = some (.message "top" none) ∧
        path.length = 3) ∧
      (∀ text, .cyclicReference text ∉ (branching.resolve "twice" none none).2) ∧
        ∀ limit, .tooDeep limit ∉ (branching.resolve "twice" none none).2 := by
  -- The leaf refers to nothing, and what refers to it twice refers to nothing else.
  have hleaf (g : Frame) : ¬ branching.entries.Refers (.message "leaf" none) g := fun h => by
    have hnone : branching.entries.referenced (.message "leaf" none) = [] := rfl
    rw [EntryTable.Refers, hnone] at h
    cases h.1
  have htwice (g : Frame) (h : branching.entries.Refers (.message "twice" none) g) :
      g = .message "leaf" none := by
    have hleaves : branching.entries.referenced (.message "twice" none) =
      [.message "leaf" none, .message "leaf" none] := rfl
    rw [EntryTable.Refers, hleaves] at h
    simpa using h.1
  refine ⟨(limits_founded branching "loop" none none).1 _ (by decide +kernel),
    (limits_founded branching "top" none none).2.1 2 (by decide +kernel),
    (limits_founded branching "twice" none none).2.2 ?_ ?_⟩
  · intro x hreached hcycle
    obtain ⟨y, hxy, hyx⟩ := Relation.TransGen.head'_iff.mp hcycle
    rcases hreached.cases_head with rfl | ⟨z, hz, hzx⟩
    · rw [htwice y hxy] at hyx
      rcases hyx.cases_head with heq | ⟨w, hw, -⟩
      · exact absurd heq (by decide)
      · exact hleaf w hw
    · rw [htwice z hz] at hzx
      rcases hzx.cases_head with rfl | ⟨w, hw, -⟩
      · exact hleaf y hxy
      · exact hleaf w hw
  -- A path from there has two frames at most.
  · intro path hpath hhead
    obtain ⟨rest, rfl⟩ := List.head?_eq_some_iff.mp hhead
    rcases rest with _ | ⟨y, _ | ⟨z, rest⟩⟩
    · exact Nat.le_succ 1
    · exact Nat.le_refl 2
    · obtain ⟨hfirst, hedges⟩ := List.isChain_cons_cons.mp hpath.edges
      rw [htwice y hfirst] at hedges
      exact absurd (List.isChain_cons_cons.mp hedges).1 (hleaf z)

end Resolver

end Phrasebook
