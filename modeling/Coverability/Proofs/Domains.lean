import Coverability.Proofs.Encoding

/-! How far domains keep hashes apart. The mark behind a domain says that the domain is over, but
the length of the domain is not hashed, so a longer domain may go on past the mark of a shorter one
and take in some of what is hashed there. This is the only way in which two inputs come to be hashed
as one text: domains of which none goes on past the mark of another are kept apart. -/

namespace Coverability.Digest
open Text

variable {domain other data others : Bytes}

/-- What stands behind every domain. -/
def mark : Bytes := utf8 ":v1"

/-- The data with its length in front, which is what stands behind the mark. -/
def sized (data : Bytes) : Bytes := littleEndian 8 data.length ++ data

theorem preimage_eq (domain data : Bytes) :
    preimage domain data = utf8 "GTS:" ++ (domain ++ (mark ++ sized data)) := by
  simp only [preimage, mark, sized, List.append_assoc]

theorem sized_injective (same : sized data = sized others) : data = others := by
  apply (List.append_inj same _).2
  rw [length_littleEndian, length_littleEndian]

/-- No end of the mark is a start of it, so of two marks in one text the second stands
behind the first. -/
theorem behind_mark {gap rest later : Bytes} (same : mark ++ rest = gap ++ (mark ++ later)) :
    gap = [] ∧ rest = later ∨ ∃ taken, gap = mark ++ taken ∧ rest = taken ++ (mark ++ later) := by
  have bytes : mark = [58, 118, 49] := by decide
  simp only [bytes, List.cons_append, List.nil_append] at same ⊢
  match gap, same with
  | [], same =>
    rw [List.nil_append, List.cons.injEq, List.cons.injEq, List.cons.injEq] at same
    exact .inl ⟨rfl, same.2.2.2⟩
  | [_], same => simp at same
  | [_, _], same => simp at same
  | first :: second :: third :: taken, same =>
    simp only [List.cons_append, List.cons.injEq] at same
    obtain ⟨rfl, rfl, rfl, behind⟩ := same
    exact .inr ⟨taken, rfl, behind⟩

/-- The other domain goes on past the mark of the first one and takes in a part of what is hashed
there for the data. The rest of it is what is hashed behind the other domain. -/
def Absorbs (domain data other others : Bytes) : Prop :=
  ∃ taken, other = domain ++ mark ++ taken ∧ sized data = taken ++ mark ++ sized others

private theorem preimage_of_absorbs (absorbs : Absorbs domain data other others) :
    preimage domain data = preimage other others := by
  obtain ⟨taken, rfl, same⟩ := absorbs
  rw [preimage_eq, preimage_eq, same]
  simp only [List.append_assoc]

private theorem absorbs_of_gap {gap : Bytes}
    (same : mark ++ sized data = gap ++ (mark ++ sized others)) :
    gap = [] ∧ data = others ∨ Absorbs domain data (domain ++ gap) others := by
  rcases behind_mark same with ⟨none, equal⟩ | ⟨taken, rfl, equal⟩
  · exact .inl ⟨none, sized_injective equal⟩
  · exact .inr ⟨taken, (List.append_assoc _ _ _).symm, equal.trans (List.append_assoc _ _ _).symm⟩

private theorem preimage_iff : preimage domain data = preimage other others ↔
    domain = other ∧ data = others ∨ Absorbs domain data other others ∨
    Absorbs other others domain data := by
  constructor
  · intro same
    rw [preimage_eq, preimage_eq, List.append_cancel_left_eq] at same
    rcases List.append_eq_append_iff.mp same with ⟨gap, rfl, behind⟩ | ⟨gap, rfl, behind⟩
    · rcases @absorbs_of_gap domain data others gap behind with ⟨rfl, equal⟩ | absorbs
      · exact .inl ⟨(List.append_nil _).symm, equal⟩
      · exact .inr (.inl absorbs)
    · rcases @absorbs_of_gap other others data gap behind with ⟨rfl, equal⟩ | absorbs
      · exact .inl ⟨List.append_nil _, equal.symm⟩
      · exact .inr (.inr absorbs)
  · rintro (⟨rfl, rfl⟩ | absorbs | absorbs)
    · rfl
    · exact preimage_of_absorbs absorbs
    · exact (preimage_of_absorbs absorbs).symm

/-- Two inputs are hashed as one text just if they are equal or one domain absorbs a part of the
other input. So domains of which none goes on past the mark of the other are kept apart, and so is
all data under them. -/
theorem preimage_exact (domain data other others : Bytes) :
    (preimage domain data = preimage other others ↔
      domain = other ∧ data = others ∨ Absorbs domain data other others ∨
      Absorbs other others domain data) ∧
    (¬domain ++ mark <+: other → ¬other ++ mark <+: domain →
      (preimage domain data = preimage other others ↔ domain = other ∧ data = others)) ∧
    ofData domain data = ⟨Sha256.hash (preimage domain data)⟩ := by
  refine ⟨preimage_iff, ?_, rfl⟩
  intro apart apartBack
  rw [preimage_iff]
  apply or_iff_left
  rintro (⟨taken, rfl, _⟩ | ⟨taken, rfl, _⟩)
  · exact apart (List.prefix_append _ _)
  · exact apartBack (List.prefix_append _ _)

/-- The domains in use are kept apart, even where the data under one of them is made to look like a
domain's end. -/
theorem preimage_apart :
    ¬utf8 "EDGE_LABEL" ++ mark <+: utf8 "GRAPH_FINGERPRINT" ∧
    ¬utf8 "GRAPH_FINGERPRINT" ++ mark <+: utf8 "EDGE_LABEL" ∧
    preimage (utf8 "EDGE_LABEL") (mark ++ sized []) ≠ preimage (utf8 "GRAPH_FINGERPRINT") [] := by
  have apart : ¬utf8 "EDGE_LABEL" ++ mark <+: utf8 "GRAPH_FINGERPRINT" := by decide
  have apartBack : ¬utf8 "GRAPH_FINGERPRINT" ++ mark <+: utf8 "EDGE_LABEL" := by decide
  refine ⟨apart, apartBack, ?_⟩
  rw [ne_eq, (preimage_exact (utf8 "EDGE_LABEL") (mark ++ sized []) (utf8 "GRAPH_FINGERPRINT") []).2.1
      apart apartBack]
  decide

/-- A label that reads like the end of a domain is hashed as no data at all is under a longer domain. -/
theorem preimage_confused :
    preimage (utf8 "EDGE_LABEL") (mark ++ sized []) =
      preimage (utf8 "EDGE_LABEL" ++ mark ++ littleEndian 8 11) [] ∧
    utf8 "EDGE_LABEL" ≠ utf8 "EDGE_LABEL" ++ mark ++ littleEndian 8 11 ∧ mark ++ sized [] ≠ [] := by
  decide

end Coverability.Digest
