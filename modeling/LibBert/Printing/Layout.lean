import Mathlib.Data.List.Basic
import Mathlib.Logic.Function.Basic
import Mathlib.Tactic.Common

/-!
# Reading printed layouts back

A layout is a token, a quoted body, or a bracketed group of layouts with separators
between them.  Where tokens are made of symbols of their own and a body does not hold the
symbol that closes it, every layout ends where its text says, so that the text determines
the layout.
-/

namespace Printing

variable {β ι κ : Type}

/-- The symbols that brackets `ι`, quotation marks `κ` and separators are printed as.  Each
is known by its first symbol. -/
structure Marks (β ι κ : Type) where
  token : β → Prop
  opening : ι → β
  closing : ι → β
  comma : β
  space : List β
  left : κ → β
  leftRest : κ → List β
  right : κ → β
  rightRest : κ → List β
  opening_inj : Function.Injective opening
  left_inj : Function.Injective left
  left_ne_opening : ∀ k i, left k ≠ opening i
  not_token_opening : ∀ i, ¬ token (opening i)
  not_token_closing : ∀ i, ¬ token (closing i)
  not_token_comma : ¬ token comma
  not_token_left : ∀ k, ¬ token (left k)
  closing_ne_comma : ∀ i, closing i ≠ comma
  closing_ne_opening : ∀ i j, closing i ≠ opening j
  closing_ne_left : ∀ i k, closing i ≠ left k

inductive Layout (β ι κ : Type) : Type where
  | token (symbols : List β)
  | quoted (quote : κ) (body : List β)
  | group (bracket : ι) (items : List (Layout β ι κ))

namespace Marks

variable (marks : Marks β ι κ)

mutual

def text : Layout β ι κ → List β
  | .token symbols => symbols
  | .quoted quote body =>
      marks.left quote ::
        (marks.leftRest quote ++ (body ++ marks.right quote :: marks.rightRest quote))
  | .group bracket items => marks.opening bracket :: itemsText bracket items

/-- What stands behind an opening bracket. -/
def itemsText (bracket : ι) : List (Layout β ι κ) → List β
  | [] => [marks.closing bracket]
  | item :: items => text item ++ tailText bracket items

/-- What stands behind an item. -/
def tailText (bracket : ι) : List (Layout β ι κ) → List β
  | [] => [marks.closing bracket]
  | item :: items => marks.comma :: (marks.space ++ (text item ++ tailText bracket items))

end

mutual

/-- Tokens are not empty and bodies do not close themselves. -/
def WellFormed : Layout β ι κ → Prop
  | .token symbols => symbols ≠ [] ∧ ∀ symbol ∈ symbols, marks.token symbol
  | .quoted quote body => marks.right quote ∉ body
  | .group _ items => AllWellFormed items

def AllWellFormed : List (Layout β ι κ) → Prop
  | [] => True
  | item :: items => WellFormed item ∧ AllWellFormed items

end

/-- A token does not go on here. -/
def Stops (rest : List β) : Prop := ∀ symbol ∈ rest.head?, ¬ marks.token symbol

end Marks

/-! ## Lists that end where another symbol begins -/

theorem append_inj_of_stops {p : β → Prop} {xs ys rest rest' : List β} (hxs : ∀ x ∈ xs, p x)
    (hys : ∀ y ∈ ys, p y) (hrest : ∀ x ∈ rest.head?, ¬ p x) (hrest' : ∀ x ∈ rest'.head?, ¬ p x)
    (h : xs ++ rest = ys ++ rest') : xs = ys ∧ rest = rest' := by
  induction xs generalizing ys with
  | nil =>
      cases ys with
      | nil => exact ⟨rfl, h⟩
      | cons y ys =>
          have hhead : y ∈ rest.head? := by
            rw [← List.nil_append rest, h]
            rfl
          exact absurd (hys y List.mem_cons_self) (hrest y hhead)
  | cons x xs ih =>
      cases ys with
      | nil =>
          have hhead : x ∈ rest'.head? := by
            rw [← List.nil_append rest', ← h]
            rfl
          exact absurd (hxs x List.mem_cons_self) (hrest' x hhead)
      | cons y ys =>
          obtain ⟨hhead, htail⟩ := List.cons.inj h
          obtain ⟨hinit, hrests⟩ := ih (List.forall_mem_cons.mp hxs).2
            (List.forall_mem_cons.mp hys).2 htail
          exact ⟨by rw [hhead, hinit], hrests⟩

/-- Two bodies that do not hold the symbol behind them. -/
theorem append_cons_inj {x : β} {xs ys rest rest' : List β} (hxs : x ∉ xs) (hys : x ∉ ys)
    (h : xs ++ x :: rest = ys ++ x :: rest') : xs = ys ∧ rest = rest' := by
  have hsplit : xs = ys ∧ x :: rest = x :: rest' := append_inj_of_stops (p := (· ≠ x))
    (fun y hy ↦ ne_of_mem_of_not_mem hy hxs) (fun y hy ↦ ne_of_mem_of_not_mem hy hys)
    (by simp) (by simp) h
  exact ⟨hsplit.1, (List.cons.inj hsplit.2).2⟩

/-- Texts that are written character by character are told apart where the characters are,
whatever follows them. -/
theorem flatMap_injOn {α : Type} {f : α → List β} {p : α → Prop} (hne : ∀ a, f a ≠ [])
    (hf : ∀ {a b rest rest'}, p a → p b → f a ++ rest = f b ++ rest' → a = b) {as bs : List α}
    (has : ∀ a ∈ as, p a) (hbs : ∀ b ∈ bs, p b) (h : as.flatMap f = bs.flatMap f) : as = bs := by
  induction as generalizing bs with
  | nil =>
      cases bs with
      | nil => rfl
      | cons b bs => exact absurd (List.append_eq_nil_iff.mp h.symm).1 (hne b)
  | cons a as ih =>
      cases bs with
      | nil => exact absurd (List.append_eq_nil_iff.mp h).1 (hne a)
      | cons b bs =>
          rw [List.flatMap_cons, List.flatMap_cons] at h
          have hab := hf (has a List.mem_cons_self) (hbs b List.mem_cons_self) h
          rw [hab] at h
          rw [hab, ih (List.forall_mem_cons.mp has).2 (List.forall_mem_cons.mp hbs).2
            (List.append_cancel_left h)]

/-! ## Forms -/

namespace Marks

variable {marks : Marks β ι κ}

theorem stops_tailText (bracket : ι) (items : List (Layout β ι κ)) (rest : List β) :
    marks.Stops (marks.tailText bracket items ++ rest) := by
  cases items with
  | nil =>
      rw [tailText]
      rintro _ ⟨⟩
      exact marks.not_token_closing bracket
  | cons item items =>
      rw [tailText]
      rintro _ ⟨⟩
      exact marks.not_token_comma

/-- No layout begins with a closing bracket. -/
theorem text_append_ne_closing {item : Layout β ι κ} (h : marks.WellFormed item) (bracket : ι)
    (rest rest' : List β) : marks.text item ++ rest ≠ marks.closing bracket :: rest' := by
  intro heq
  cases item with
  | token symbols =>
      obtain ⟨hne, hsymbols⟩ := h
      cases symbols with
      | nil => exact hne rfl
      | cons symbol symbols =>
          obtain ⟨rfl, -⟩ := List.cons.inj heq
          exact marks.not_token_closing bracket (hsymbols _ List.mem_cons_self)
  | quoted quote body => exact marks.closing_ne_left bracket quote (List.cons.inj heq).1.symm
  | group bracket' items =>
      exact marks.closing_ne_opening bracket bracket' (List.cons.inj heq).1.symm

/-- A token begins with no mark. -/
theorem token_append_ne {symbols : List β} (h : marks.WellFormed (.token symbols)) {mark : β}
    (hmark : ¬ marks.token mark) (rest rest' : List β) : symbols ++ rest ≠ mark :: rest' := by
  intro heq
  obtain ⟨hne, hsymbols⟩ := h
  cases symbols with
  | nil => exact hne rfl
  | cons symbol symbols =>
      obtain ⟨rfl, -⟩ := List.cons.inj heq
      exact hmark (hsymbols _ List.mem_cons_self)

mutual

/-- A layout and what stands behind it are read back from the text. -/
theorem text_append_inj :
    ∀ (f f' : Layout β ι κ) {rest rest' : List β}, marks.WellFormed f → marks.WellFormed f' →
      marks.Stops rest → marks.Stops rest' →
        marks.text f ++ rest = marks.text f' ++ rest' → f = f' ∧ rest = rest'
  | .token symbols, .token symbols', _, _, hf, hf', hrest, hrest', h => by
      obtain ⟨rfl, hrests⟩ := append_inj_of_stops hf.2 hf'.2 hrest hrest' h
      exact ⟨rfl, hrests⟩
  | .token symbols, .quoted quote body, _, _, hf, _, _, _, h =>
      (token_append_ne hf (marks.not_token_left quote) _ _ h).elim
  | .token symbols, .group bracket items, _, _, hf, _, _, _, h =>
      (token_append_ne hf (marks.not_token_opening bracket) _ _ h).elim
  | .quoted quote body, .token symbols, _, _, _, hf', _, _, h =>
      (token_append_ne hf' (marks.not_token_left quote) _ _ h.symm).elim
  | .quoted quote body, .quoted quote' body', _, _, hf, hf', _, _, h => by
      simp only [text, List.cons_append, List.append_assoc, List.cons.injEq] at h
      obtain ⟨hleft, h⟩ := h
      obtain rfl := marks.left_inj hleft
      obtain ⟨rfl, hrests⟩ := append_cons_inj hf hf' (List.append_cancel_left h)
      exact ⟨rfl, List.append_cancel_left hrests⟩
  | .quoted quote body, .group bracket items, _, _, _, _, _, _, h =>
      (marks.left_ne_opening quote bracket (List.cons.inj h).1).elim
  | .group bracket items, .token symbols, _, _, _, hf', _, _, h =>
      (token_append_ne hf' (marks.not_token_opening bracket) _ _ h.symm).elim
  | .group bracket items, .quoted quote body, _, _, _, _, _, _, h =>
      (marks.left_ne_opening quote bracket (List.cons.inj h).1.symm).elim
  | .group bracket items, .group bracket' items', _, _, hf, hf', _, _, h => by
      obtain ⟨hopening, h⟩ := List.cons.inj h
      obtain rfl := marks.opening_inj hopening
      obtain ⟨rfl, hrests⟩ := itemsText_append_inj bracket items items' hf hf' h
      exact ⟨rfl, hrests⟩

theorem itemsText_append_inj (bracket : ι) :
    ∀ (items items' : List (Layout β ι κ)) {rest rest' : List β}, marks.AllWellFormed items →
      marks.AllWellFormed items' →
        marks.itemsText bracket items ++ rest = marks.itemsText bracket items' ++ rest' →
          items = items' ∧ rest = rest'
  | [], [], _, _, _, _, h => ⟨rfl, (List.cons.inj h).2⟩
  | [], item' :: items', _, _, _, hitems', h => by
      rw [itemsText, itemsText, List.append_assoc] at h
      exact (text_append_ne_closing hitems'.1 bracket _ _ h.symm).elim
  | item :: items, [], _, _, hitems, _, h => by
      rw [itemsText, itemsText, List.append_assoc] at h
      exact (text_append_ne_closing hitems.1 bracket _ _ h).elim
  | item :: items, item' :: items', _, _, hitems, hitems', h => by
      rw [itemsText, itemsText, List.append_assoc, List.append_assoc] at h
      obtain ⟨rfl, htails⟩ := text_append_inj item item' hitems.1 hitems'.1
        (stops_tailText bracket items _) (stops_tailText bracket items' _) h
      obtain ⟨rfl, hrests⟩ := tailText_append_inj bracket items items' hitems.2 hitems'.2 htails
      exact ⟨rfl, hrests⟩

theorem tailText_append_inj (bracket : ι) :
    ∀ (items items' : List (Layout β ι κ)) {rest rest' : List β}, marks.AllWellFormed items →
      marks.AllWellFormed items' →
        marks.tailText bracket items ++ rest = marks.tailText bracket items' ++ rest' →
          items = items' ∧ rest = rest'
  | [], [], _, _, _, _, h => ⟨rfl, (List.cons.inj h).2⟩
  | [], item' :: items', _, _, _, _, h =>
      (marks.closing_ne_comma bracket (List.cons.inj h).1).elim
  | item :: items, [], _, _, _, _, h =>
      (marks.closing_ne_comma bracket (List.cons.inj h).1.symm).elim
  | item :: items, item' :: items', _, _, hitems, hitems', h => by
      simp only [tailText, List.cons_append, List.append_assoc, List.cons.injEq, true_and] at h
      obtain ⟨rfl, htails⟩ := text_append_inj item item' hitems.1 hitems'.1
        (stops_tailText bracket items _) (stops_tailText bracket items' _)
        (List.append_cancel_left h)
      obtain ⟨rfl, hrests⟩ := tailText_append_inj bracket items items' hitems.2 hitems'.2 htails
      exact ⟨rfl, hrests⟩

end

end Marks

end Printing
