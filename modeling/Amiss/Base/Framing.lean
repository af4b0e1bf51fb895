import Amiss.Base.BigEndian
import Mathlib.Data.Set.Function

/-!
# Values Written One After the Other

When several values are written into one list, a reader can tell them apart
only if each of them says where it ends. `Unambiguous` is that property of a
writer: what it wrote and whatever follows are both settled by the whole. It is
kept by the ways a format is put together, so that two equal lists are taken
apart front to back, one writer at a time.

## Main definitions

* `Unambiguous`: A written value can be told from what follows it.

## Theorems

* `Unambiguous.fixed`: Values of one width.
* `Unambiguous.append`: One value after the other.
* `Unambiguous.framed`: Values behind their length.
* `Unambiguous.repeated`, `Unambiguous.counted`: Lists, of one length or
  behind their length.
* `Unambiguous.terminated`: Values before a separator they do not hold.
-/

namespace Amiss

open List

/-- What was written and what follows it are both settled by the whole. -/
def Unambiguous {α β : Type} (valid : α → Prop) (write : α → List β) : Prop :=
  ∀ ⦃a b : α⦄, valid a → valid b → ∀ {x y : List β}, write a ++ x = write b ++ y → a = b ∧ x = y

namespace Unambiguous

variable {α β γ : Type} {valid : α → Prop} {write : α → List β}

/-- Values that are all written in one width. -/
theorem fixed (width : Nat) (hwidth : ∀ a, valid a → (write a).length = width)
    (hinj : Set.InjOn write valid) : Unambiguous valid write := by
  intro a b ha hb x y heq
  have hparts := append_inj heq ((hwidth a ha).trans (hwidth b hb).symm)
  exact ⟨hinj ha hb hparts.1, hparts.2⟩

/-- A value told apart by another one it is written through. -/
theorem through {f : γ → α} (h : Unambiguous valid write) {valid' : γ → Prop}
    (hvalid : ∀ c, valid' c → valid (f c)) (hinj : Set.InjOn f valid') :
    Unambiguous valid' (fun c => write (f c)) := by
  intro c d hc hd x y heq
  rcases h (hvalid c hc) (hvalid d hd) heq with ⟨hsame, hrest⟩
  exact ⟨hinj hc hd hsame, hrest⟩

/-- One value after the other. -/
theorem append {valid' : γ → Prop} {write' : γ → List β} (h : Unambiguous valid write)
    (h' : Unambiguous valid' write') :
    Unambiguous (fun p : α × γ => valid p.1 ∧ valid' p.2) (fun p => write p.1 ++ write' p.2) := by
  rintro ⟨a, c⟩ ⟨b, d⟩ hleft hright x y heq
  dsimp only at heq
  rw [append_assoc, append_assoc] at heq
  rcases h hleft.1 hright.1 heq with ⟨rfl, hrest⟩
  rcases h' hleft.2 hright.2 hrest with ⟨rfl, hlast⟩
  exact ⟨rfl, hlast⟩

/-- Lists of one length, element after element. -/
theorem repeated (h : Unambiguous valid write) {as bs : List α} (hlength : as.length = bs.length)
    (has : ∀ a ∈ as, valid a) (hbs : ∀ b ∈ bs, valid b) {x y : List β}
    (heq : as.flatMap write ++ x = bs.flatMap write ++ y) : as = bs ∧ x = y := by
  induction as generalizing bs with
  | nil =>
    have hnil : bs = [] := length_eq_zero_iff.mp hlength.symm
    subst hnil
    exact ⟨rfl, heq⟩
  | cons a as ih =>
    cases bs with
    | nil => exact absurd hlength (Nat.succ_ne_zero as.length)
    | cons b bs =>
      rw [forall_mem_cons] at has hbs
      rw [flatMap_cons, flatMap_cons, append_assoc, append_assoc] at heq
      rcases h has.1 hbs.1 heq with ⟨hfirst, hrest⟩
      rcases ih (Nat.succ.inj hlength) has.2 hbs.2 hrest with ⟨hothers, hlast⟩
      exact ⟨by rw [hfirst, hothers], hlast⟩

/-- A list behind its length. -/
theorem counted {short : Nat → Prop} {writeLength : Nat → List β}
    (hlengths : Unambiguous short writeLength) (h : Unambiguous valid write) :
    Unambiguous (fun as : List α => short as.length ∧ ∀ a ∈ as, valid a)
      (fun as => writeLength as.length ++ as.flatMap write) := by
  intro as bs has hbs x y heq
  rw [append_assoc, append_assoc] at heq
  rcases hlengths has.1 hbs.1 heq with ⟨hlength, hrest⟩
  exact h.repeated hlength has.2 hbs.2 hrest

/-- A value behind its length, element for element. -/
theorem framed {short : Nat → Prop} {writeLength : Nat → List β}
    (hlengths : Unambiguous short writeLength) :
    Unambiguous (fun as : List β => short as.length)
      (fun as => writeLength as.length ++ as) := by
  intro as bs has hbs x y heq
  rw [append_assoc, append_assoc] at heq
  rcases hlengths has hbs heq with ⟨hlength, hrest⟩
  exact append_inj hrest hlength

/-- A value before a separator that it does not hold. -/
theorem terminated (separator : β) :
    Unambiguous (fun as : List β => separator ∉ as) (fun as => as ++ [separator]) := by
  intro as bs has hbs x y heq
  dsimp only at has hbs heq
  induction as generalizing bs with
  | nil =>
    cases bs with
    | nil => exact ⟨rfl, (cons.inj heq).2⟩
    | cons b bs =>
      -- The separator would be the first element of the other value.
      have hfirst : separator = b := (cons.inj heq).1
      exact absurd (hfirst ▸ mem_cons_self) hbs
  | cons a as ih =>
    cases bs with
    | nil =>
      have hfirst : a = separator := (cons.inj heq).1
      exact absurd (hfirst ▸ mem_cons_self) has
    | cons b bs =>
      have hparts := cons.inj heq
      rcases ih (fun h => has (mem_cons_of_mem a h))
        (fun h => hbs (mem_cons_of_mem b h)) hparts.2 with ⟨hothers, hrest⟩
      exact ⟨by rw [hparts.1, hothers], hrest⟩

end Unambiguous

/-- Numbers that fit their width are told apart. -/
theorem beBytes_injOn (width : Nat) : Set.InjOn (beBytes width) (fun n => n < 256 ^ width) := by
  intro n hn m hm heq
  have hread := congrArg ofBeBytes heq
  rwa [ofBeBytes_beBytes hn, ofBeBytes_beBytes hm] at hread

theorem unambiguous_beBytes (width : Nat) :
    Unambiguous (fun n => n < 256 ^ width) (beBytes width) :=
  .fixed width (fun n _ => length_beBytes width n) (beBytes_injOn width)

end Amiss
