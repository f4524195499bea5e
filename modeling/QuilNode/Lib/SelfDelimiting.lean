import Mathlib

/-!
# Self-delimiting codes

A code is self-delimiting on a set of values when a code word is recognised in
front of anything: if two words followed by any rests agree, the words encode
the same value and the rests agree.  Self-delimiting codes compose: one after
the other, and, behind a count, as many of them as the count says.
-/

/-- Words of `enc` in front of any rests determine the value and the rest. -/
def SelfDelimiting {σ α : Type*} (valid : α → Prop) (enc : α → List σ) : Prop :=
  ∀ ⦃a b : α⦄, valid a → valid b → ∀ ⦃x y : List σ⦄, enc a ++ x = enc b ++ y → a = b ∧ x = y

namespace SelfDelimiting

open List

variable {σ α β : Type*} {valid : α → Prop} {enc : α → List σ}

theorem injective (h : SelfDelimiting valid enc) {a b : α} (ha : valid a) (hb : valid b)
    (heq : enc a = enc b) : a = b :=
  (h ha hb (congrArg (· ++ []) heq)).1

/-- Words of one length, different for different values. -/
theorem of_length (hlen : ∀ a b, valid a → valid b → (enc a).length = (enc b).length)
    (hinj : ∀ a b, valid a → valid b → enc a = enc b → a = b) : SelfDelimiting valid enc := by
  intro a b ha hb x y h
  obtain ⟨hword, hrest⟩ := append_inj h (hlen a b ha hb)
  exact ⟨hinj a b ha hb hword, hrest⟩

/-- A code seen through a function that loses nothing. -/
theorem comap {f : β → α} {valid' : β → Prop} (h : SelfDelimiting valid enc)
    (hvalid : ∀ b, valid' b → valid (f b)) (hf : ∀ a b, f a = f b → a = b) :
    SelfDelimiting valid' (fun b => enc (f b)) := by
  intro a b ha hb x y heq
  obtain ⟨hab, hxy⟩ := h (hvalid a ha) (hvalid b hb) heq
  exact ⟨hf a b hab, hxy⟩

/-- One code after another. -/
theorem append {f : β → List σ} {valid' : β → Prop} (h : SelfDelimiting valid enc)
    (h' : SelfDelimiting valid' f) :
    SelfDelimiting (fun p : α × β => valid p.1 ∧ valid' p.2) (fun p => enc p.1 ++ f p.2) := by
  rintro ⟨a, b⟩ ⟨a', b'⟩ ⟨ha, hb⟩ ⟨ha', hb'⟩ x y heq
  simp only [append_assoc] at heq
  obtain ⟨rfl, hrest⟩ := h ha ha' heq
  obtain ⟨rfl, hxy⟩ := h' hb hb' hrest
  exact ⟨rfl, hxy⟩

/-- A list of words, for lists of one length. -/
theorem flatMap_inj (h : SelfDelimiting valid enc) :
    ∀ {as bs : List α}, as.length = bs.length → (∀ a ∈ as, valid a) → (∀ b ∈ bs, valid b) →
      ∀ {x y : List σ}, as.flatMap enc ++ x = bs.flatMap enc ++ y → as = bs ∧ x = y := by
  intro as
  induction as with
  | nil =>
    intro bs hlen _ _ x y heq
    have hbs : bs = [] := length_eq_zero_iff.mp hlen.symm
    subst hbs
    exact ⟨rfl, heq⟩
  | cons a as ih =>
    intro bs hlen ha hb x y heq
    cases bs with
    | nil => cases hlen
    | cons b =>
      simp only [flatMap_cons, append_assoc] at heq
      obtain ⟨rfl, hrest⟩ := h (ha a mem_cons_self) (hb b mem_cons_self) heq
      obtain ⟨rfl, hxy⟩ := ih (Nat.succ.inj hlen) (fun c hc => ha c (mem_cons_of_mem _ hc))
        (fun c hc => hb c (mem_cons_of_mem _ hc)) hrest
      exact ⟨rfl, hxy⟩

/-- A list of words behind the code of their number. -/
theorem counted {num : Nat → List σ} {bound : Nat} (hnum : SelfDelimiting (· < bound) num)
    (h : SelfDelimiting valid enc) :
    SelfDelimiting (fun as : List α => as.length < bound ∧ ∀ a ∈ as, valid a)
      (fun as => num as.length ++ as.flatMap enc) := by
  rintro as bs ⟨hlen, ha⟩ ⟨hlen', hb⟩ x y heq
  simp only [append_assoc] at heq
  obtain ⟨hcount, hrest⟩ := hnum hlen hlen' heq
  exact h.flatMap_inj hcount ha hb hrest

end SelfDelimiting
