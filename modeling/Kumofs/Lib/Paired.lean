import Mathlib.Data.List.Forall2

/-!
# Two lists kept side by side

What `List.Forall₂` says of the elements at one place, and that it outlives the same change made to
both lists.
-/

namespace Paired

open List

variable {α β : Type*} {R : α → β → Prop} {x : α} {y : β}

theorem getElem?_right : ∀ {l : List α} {l' : List β} {k : ℕ}, Forall₂ R l l' → l[k]? = some x →
    l'[k]? = some y → R x y
  | _, _, _, .nil, h, _ => by simp at h
  | _, _, 0, .cons hr _, h, h' => by
    simp only [getElem?_cons_zero, Option.some.injEq] at h h'
    exact h ▸ h' ▸ hr
  | _, _, k + 1, .cons _ hl, h, h' => getElem?_right hl (by simpa using h) (by simpa using h')

theorem mem_right : ∀ {l : List α} {l' : List β}, Forall₂ R l l' → y ∈ l' → ∃ x ∈ l, R x y
  | _, _, .nil, h => absurd h not_mem_nil
  | _, _, .cons hr hl, h => by
    rcases mem_cons.1 h with rfl | h
    · exact ⟨_, mem_cons_self, hr⟩
    · obtain ⟨x, hx, hxy⟩ := mem_right hl h
      exact ⟨x, mem_cons_of_mem _ hx, hxy⟩

theorem mem_left {l : List α} {l' : List β} (h : Forall₂ R l l') (hx : x ∈ l) : ∃ y ∈ l', R x y :=
  mem_right h.flip hx

theorem concat : ∀ {l : List α} {l' : List β}, Forall₂ R l l' → R x y →
    Forall₂ R (l ++ [x]) (l' ++ [y])
  | _, _, .nil, h => .cons h .nil
  | _, _, .cons hr hl, h => .cons hr (concat hl h)

theorem set : ∀ {l : List α} {l' : List β}, Forall₂ R l l' → R x y →
    ∀ k, Forall₂ R (l.set k x) (l'.set k y)
  | _, _, .nil, _, _ => .nil
  | _, _, .cons _ hl, h, 0 => .cons h hl
  | _, _, .cons hr hl, h, k + 1 => .cons hr (set hl h k)

theorem set_left : ∀ {l : List α} {l' : List β} {k : ℕ}, Forall₂ R l l' →
    (∀ y, l'[k]? = some y → R x y) → Forall₂ R (l.set k x) l'
  | _, _, _, .nil, _ => .nil
  | _, _, 0, .cons _ hl, h => .cons (h _ rfl) hl
  | _, _, _ + 1, .cons hr hl, h => .cons hr (set_left hl fun y hy => h y (by simpa using hy))

theorem set_right : ∀ {l : List α} {l' : List β} {k : ℕ}, Forall₂ R l l' →
    (∀ x, l[k]? = some x → R x y) → Forall₂ R l (l'.set k y)
  | _, _, _, .nil, _ => .nil
  | _, _, 0, .cons _ hl, h => .cons (h _ rfl) hl
  | _, _, _ + 1, .cons hr hl, h => .cons hr (set_right hl fun x hx => h x (by simpa using hx))

theorem eraseIdx : ∀ {l : List α} {l' : List β}, Forall₂ R l l' →
    ∀ k, Forall₂ R (l.eraseIdx k) (l'.eraseIdx k)
  | _, _, .nil, _ => .nil
  | _, _, .cons _ hl, 0 => hl
  | _, _, .cons hr hl, k + 1 => .cons hr (eraseIdx hl k)

end Paired
