import Mathlib.Data.List.Sort
import Phrasebook.Proofs.EditDistance
import Phrasebook.Proofs.Text
import Phrasebook.Suggestion

/-!
# The closest names

Suggestions are the first three of the candidates within the limit, in the order of their distances
and then of their names, so the order of the candidates has no part in them. The limit of a name
goes by its bytes: a name of three characters at most has the limit of a longer one if it has more
bytes than three.
-/

namespace Phrasebook.Suggestion

variable {name c d e : String} {candidates others : List String}

/-- The number of edits between a name and a candidate. -/
def distance (name c : String) : Nat := Text.editDistance name.toList c.toList

/-- The candidate differs from the name, but not by more than the limit. -/
def isNear (name c : String) : Bool := 0 < distance name c && distance name c ≤ limit name

/-- The first candidate is suggested before the second. -/
def isBefore (name c d : String) : Bool := precedes (distance name c, c) (distance name d, d)

/-- The candidates within the limit, in order. -/
def ranking (name : String) (candidates : List String) : List String :=
  (candidates.filter (isNear name)).mergeSort (isBefore name)

/-- A candidate is near if it differs from the name, and by no more than the limit. -/
theorem isNear_iff : isNear name c ↔ 1 ≤ distance name c ∧ distance name c ≤ limit name := by
  simp [isNear, Nat.one_le_iff_ne_zero, Nat.pos_iff_ne_zero]

/-- Candidates are ranked by distance and then by the text. -/
theorem isBefore_iff : isBefore name c d ↔
    distance name c < distance name d ∨ distance name c = distance name d ∧ c ≤ d := by
  simp [isBefore, precedes]

/-- The suggestions are the first three of the ranking. -/
theorem suggest_eq (name : String) (candidates : List String) :
    suggest name candidates = (ranking name candidates).take 3 := by
  have hnear : near name candidates =
      (candidates.filter (isNear name)).map fun c => (distance name c, c) := by
    rw [near, List.filter_map]
    rfl
  have hsorted : (near name candidates).mergeSort precedes =
      (ranking name candidates).map fun c => (distance name c, c) := by
    rw [hnear]
    refine (List.map_mergeSort ?_).symm
    exact fun c _ d _ => rfl
  rw [suggest, hsorted, ← List.map_take, List.map_map]
  exact List.map_id _

/-! ## The order -/

/-- The rank of candidates is transitive. -/
theorem isBefore_trans (c d e : String) (hcd : isBefore name c d) (hde : isBefore name d e) :
    isBefore name c e := by
  rw [isBefore_iff] at hcd hde ⊢
  rcases hcd with hlt | ⟨heq, hle⟩
  · exact .inl (hde.elim hlt.trans fun h => h.1 ▸ hlt)
  · rcases hde with hlt' | ⟨heq', hle'⟩
    · exact .inl (heq ▸ hlt')
    · exact .inr ⟨heq.trans heq', String.le_trans hle hle'⟩

/-- Of two candidates one is ranked before the other. -/
theorem isBefore_total (c d : String) : (isBefore name c d || isBefore name d c) = true := by
  rw [Bool.or_eq_true, isBefore_iff, isBefore_iff]
  rcases Nat.lt_trichotomy (distance name c) (distance name d) with hlt | heq | hgt
  · exact .inl (.inl hlt)
  · exact (String.le_total c d).imp (fun h => .inr ⟨heq, h⟩) fun h => .inr ⟨heq.symm, h⟩
  · exact .inr (.inl hgt)

/-- Two candidates of one rank are the same. -/
theorem isBefore_antisymm (hcd : isBefore name c d) (hdc : isBefore name d c) : c = d := by
  rw [isBefore_iff] at hcd hdc
  rcases hcd with hlt | ⟨heq, hle⟩
  · omega
  · exact String.le_antisymm hle (hdc.resolve_left (by omega)).2

/-- The ranking has the near candidates, each as often as it occurs. -/
theorem ranking_perm (name : String) (candidates : List String) :
    (ranking name candidates).Perm (candidates.filter (isNear name)) :=
  List.mergeSort_perm ..

/-- The candidates of a ranking stand in the order of their rank. -/
theorem pairwise_ranking (name : String) (candidates : List String) :
    (ranking name candidates).Pairwise fun c d => isBefore name c d :=
  List.pairwise_mergeSort isBefore_trans isBefore_total _

/-- The order of the candidates does not matter. -/
theorem ranking_eq_of_perm (h : others.Perm candidates) :
    ranking name others = ranking name candidates := by
  have hperm := (ranking_perm name others).trans
    ((h.filter _).trans (ranking_perm name candidates).symm)
  exact hperm.eq_of_pairwise (fun c d _ _ => isBefore_antisymm) (pairwise_ranking name others)
    (pairwise_ranking name candidates)

/-- Only near candidates are suggested. -/
theorem isNear_of_mem_suggest (h : c ∈ suggest name candidates) : isNear name c := by
  rw [suggest_eq] at h
  exact (List.mem_filter.mp ((ranking_perm name candidates).subset (List.mem_of_mem_take h))).2

/-- Only the name itself has no distance from it. -/
theorem distance_eq_zero : distance name c = 0 ↔ c = name := by
  rw [distance, Text.editDistance_eq_zero, String.toList_inj, eq_comm]

/-- What is left out is not closer than what is suggested, but for the name itself. -/
theorem distance_le_of_not_mem_suggest (hc : c ∈ candidates) (hne : c ≠ name)
    (hout : c ∉ suggest name candidates) (hd : d ∈ suggest name candidates) :
    distance name d ≤ distance name c := by
  have hpos : 1 ≤ distance name c := Nat.one_le_iff_ne_zero.mpr (mt distance_eq_zero.mp hne)
  -- A candidate is left out behind the first three of the ranking, or because it is beyond the
  -- limit.
  by_cases hlimit : distance name c ≤ limit name
  · have hnear : c ∈ candidates.filter (isNear name) :=
      List.mem_filter.mpr ⟨hc, isNear_iff.mpr ⟨hpos, hlimit⟩⟩
    have hranked := (ranking_perm name candidates).symm.subset hnear
    have hsorted := pairwise_ranking name candidates
    rw [suggest_eq] at hout hd
    rw [← List.take_append_drop 3 (ranking name candidates)] at hranked hsorted
    have hdropped := (List.mem_append.mp hranked).resolve_left hout
    rcases isBefore_iff.mp ((List.pairwise_append.mp hsorted).2.2 d hd c hdropped) with h | h
    · exact h.le
    · exact h.1.le
  · exact (isNear_iff.mp (isNear_of_mem_suggest hd)).2.trans (Nat.le_of_not_le hlimit)

/-! ## The limit -/

/-- Every character takes a byte or more. -/
theorem length_le_byteLength (text : List Char) : text.length ≤ Text.byteLength text := by
  induction text with
  | nil => exact Nat.le_refl 0
  | cons c text ih =>
    have hpos := c.utf8Size_pos
    rw [List.length_cons, Text.byteLength]
    omega

/-- A name has no more characters than bytes. -/
theorem length_le_utf8ByteSize (name : String) : name.length ≤ name.utf8ByteSize := by
  have h := length_le_byteLength name.toList
  rwa [Text.byteLength_eq_utf8ByteSize, String.ofList_toList, String.length_toList] at h

/-- The limit is that of a name of as many characters, unless those are three at most and take more
than three bytes. -/
theorem limit_eq_iff (name : String) : limit name = (if name.length ≤ 3 then 1 else 2) ↔
    ¬ (name.length ≤ 3 ∧ 3 < name.utf8ByteSize) := by
  have hlength := length_le_utf8ByteSize name
  rw [limit]
  split_ifs <;> omega

/-- Suggested are the three closest candidates within the limit, or as many as there are: first the
ones with the smallest distance, which is the least number of edits, and among these the first by
name. The order of the candidates does not matter, and none that is left out is closer, but for the
name itself. The limit goes by the bytes of the name, which is as by its characters except for short
names with more bytes. -/
theorem suggest_closest (name : String) (candidates : List String) :
    (∀ c, IsLeast {n | Text.EditsTo n name.toList c.toList} (distance name c)) ∧
      (∃ ranked : List String,
        ranked.Perm (candidates.filter fun c =>
          1 ≤ distance name c ∧ distance name c ≤ limit name) ∧
        (ranked.Pairwise fun c d =>
          distance name c < distance name d ∨ distance name c = distance name d ∧ c ≤ d) ∧
        suggest name candidates = ranked.take 3) ∧
      (∀ others : List String, others.Perm candidates →
        suggest name others = suggest name candidates) ∧
      (∀ c ∈ candidates, c ≠ name → c ∉ suggest name candidates →
        ∀ d ∈ suggest name candidates, distance name d ≤ distance name c) ∧
      (limit name = (if name.length ≤ 3 then 1 else 2) ↔
        ¬ (name.length ≤ 3 ∧ 3 < name.utf8ByteSize)) := by
  have hnear : isNear name = fun c => 1 ≤ distance name c ∧ distance name c ≤ limit name := by
    funext c
    rw [Bool.eq_iff_iff, isNear_iff, decide_eq_true_iff]
  refine ⟨fun c => Text.isLeast_editDistance _ _, ⟨ranking name candidates, ?_, ?_,
    suggest_eq name candidates⟩, fun others hperm => ?_,
    fun c hc hne hout d hd => distance_le_of_not_mem_suggest hc hne hout hd, limit_eq_iff name⟩
  · rw [← hnear]
    exact ranking_perm name candidates
  · exact (pairwise_ranking name candidates).imp isBefore_iff.mp
  · rw [suggest_eq, suggest_eq, ranking_eq_of_perm hperm]

/-- Two of three names are close to a fourth, in whatever order they come. -/
theorem suggest_closest_help :
    let candidates := ["hello", "help", "goodbye"]
    suggest "helo" candidates = ["hello", "help"] ∧
      suggest "helo" candidates.reverse = ["hello", "help"] ∧
      ∀ d ∈ ["hello", "help"], distance "helo" d ≤ distance "helo" "goodbye" := by
  intro candidates
  have hnear : candidates.filter (isNear "helo") = ["hello", "help"] := by decide +kernel
  have hsuggest : suggest "helo" candidates = ["hello", "help"] := by
    rw [suggest_eq, ranking, hnear, List.mergeSort_of_pairwise (by decide +kernel)]
    rfl
  obtain ⟨-, -, horder, hclosest, -⟩ := suggest_closest "helo" candidates
  rw [hsuggest] at horder hclosest
  exact ⟨hsuggest, horder candidates.reverse candidates.reverse_perm,
    hclosest "goodbye" (by decide) (by decide) (by decide)⟩

/-- A name of two characters has a suggestion that differs in both, since it has four bytes. -/
theorem suggest_beyond_limit :
    suggest "éé" ["aa"] = ["aa"] ∧ ¬ ∀ c ∈ suggest "éé" ["aa"],
      distance "éé" c ≤ if "éé".length ≤ 3 then 1 else 2 := by
  decide +kernel

end Phrasebook.Suggestion
