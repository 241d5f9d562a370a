import Mathlib.Computability.Language
import RegularLanguages.Expression.Basic

/-!
The language of an expression. The constructors that simplify denote what the plain ones denote.
-/
namespace RegularLanguages.Expression

open Computability

def language : Expression → Language String
  | empty => 0
  | epsilon => 1
  | symbol name => {[name]}
  | concatenation l r => l.language * r.language
  | union l r => l.language + r.language
  | kleeneStar e => e.language∗

theorem mem_language_epsilon {word : List String} : word ∈ epsilon.language ↔ word = [] := Iff.rfl

theorem mem_language_symbol {name : String} {word : List String} :
    word ∈ (symbol name).language ↔ word = [name] := Iff.rfl

@[simp] theorem language_concat (l r : Expression) : (l.concat r).language = l.language * r.language := by
  fun_cases concat l r with
  | case1 => exact (zero_mul _).symm
  | case2 => exact (mul_zero _).symm
  | case3 => exact (one_mul _).symm
  | case4 => exact (mul_one _).symm
  | case5 => rfl

@[simp] theorem language_alternative (l r : Expression) :
    (l.alternative r).language = l.language + r.language := by
  fun_cases alternative l r with
  | case1 => exact (zero_add _).symm
  | case2 => exact (add_zero _).symm
  | case3 => exact (Language.add_self _).symm
  | case4 => rfl

@[simp] theorem language_iterate (e : Expression) : e.iterate.language = e.language∗ := by
  fun_cases iterate e with
  | case1 => exact kstar_zero.symm
  | case2 => exact kstar_one.symm
  | case3 e => exact (kstar_idem e.language).symm
  | case4 => rfl

end RegularLanguages.Expression
