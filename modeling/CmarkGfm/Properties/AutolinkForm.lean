import CmarkGfm.Properties.DocumentTrees
import CmarkGfm.Render.Commonmark

/-!
# Links in autolink form

The CommonMark renderer writes a link as an autolink when the first chunk of its first child is the URL, whatever
kind of node that child is, and whatever comes after it.
-/

namespace CmarkGfm

/-- `strncmp` finds no difference, over the same length. -/
def SameChunk (s t : Bytes) : Prop := s.length = t.length ∧ cstr s = cstr t

theorem SameChunk.eq {s t : Bytes} (same : SameChunk s t) (nulFree : 0 ∉ s) : t = s := by
  have whole : cstr s = s := by
    refine List.takeWhile_eq_self_iff.mpr fun c member => ?_
    rw [bne_iff_ne]
    rintro rfl
    exact nulFree member
  have cut : (cstr t).length = t.length := by rw [← same.2, whole, same.1]
  have isPrefix : cstr t <+: t := List.takeWhile_prefix _
  rw [← isPrefix.eq_of_length cut, ← same.2, whole]

/-- No text node comes right after another. -/
def NoTwoTexts (f : Forest) : Prop := f.IsChain fun a b => ¬ (a.type = .text ∧ b.type = .text)

mutual

theorem noTwoTexts_consolidateTextNodes : (n : Node) → n.All (fun _ d cs => d.type = .text → cs = []) →
    (consolidateTextNodes n).All fun _ d cs => NoTwoTexts cs ∧ (d.type = .text → cs = [])
  | .mk i d cs, all => by
    obtain ⟨chain, below⟩ := noTwoTexts_consolidateList cs all.2
    refine ⟨⟨chain, fun isText => ?_⟩, below⟩
    rw [all.1 isText]
    rfl

theorem noTwoTexts_consolidateList : (f : Forest) → AllList (fun _ d cs => d.type = .text → cs = []) f →
    NoTwoTexts (consolidateList f) ∧
      AllList (fun _ d cs => NoTwoTexts cs ∧ (d.type = .text → cs = [])) (consolidateList f)
  | [], _ => ⟨.nil, trivial⟩
  | n :: ns, all => by
    have first := noTwoTexts_consolidateTextNodes n all.1
    obtain ⟨chain, rest⟩ := noTwoTexts_consolidateList ns all.2
    rw [consolidateList]
    generalize consolidateTextNodes n = m at first ⊢
    generalize consolidateList ns = ms at chain rest ⊢
    split
    next i cur j tmp cs after =>
      split
      next both =>
        -- the merged node is a text node like the one that it takes the place of
        refine ⟨?_, ⟨⟨first.1.1, fun _ => rfl⟩, trivial⟩, rest.2⟩
        unfold NoTwoTexts at chain ⊢
        cases after with
        | nil => exact .singleton _
        | cons t after =>
          rw [List.isChain_cons_cons] at chain ⊢
          exact ⟨fun texts => chain.1 ⟨both.2, texts.2⟩, chain.2⟩
      next notBoth => exact ⟨.cons_cons notBoth chain, first, rest⟩
    next single =>
      refine ⟨?_, first, rest⟩
      cases ms with
      | nil => exact .singleton _
      | cons t after =>
        refine .cons_cons (fun texts => ?_) chain
        obtain ⟨i, d, cs⟩ := m
        obtain ⟨j, e, ds⟩ := t
        obtain rfl : cs = [] := first.1.2 texts.1
        exact single i d j e ds after rfl rfl

end

mutual

/-- Where there is nothing to merge, nothing is changed. -/
theorem consolidateTextNodes_eq_self : (n : Node) → n.All (fun _ d cs => NoTwoTexts cs ∧ (d.type = .text → cs = [])) →
    consolidateTextNodes n = n
  | .mk i d cs, all => by rw [consolidateTextNodes, consolidateList_eq_self cs all.1.1 all.2]

theorem consolidateList_eq_self : (f : Forest) → NoTwoTexts f →
    AllList (fun _ d cs => NoTwoTexts cs ∧ (d.type = .text → cs = [])) f → consolidateList f = f
  | [], _, _ => by rw [consolidateList]
  | n :: ns, chain, all => by
    rw [consolidateList, consolidateTextNodes_eq_self n all.1, consolidateList_eq_self ns chain.tail all.2]
    split
    next i cur j tmp cs after =>
      exact if_neg (List.isChain_cons_cons.mp chain).1
    next => rfl

end

end CmarkGfm
