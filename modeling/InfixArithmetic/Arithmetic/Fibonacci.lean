/-!
Fibonacci numbers, counted from `fibonacci 0 = 0`.
-/

namespace InfixArithmetic

/-- The `n`-th number of the sequence that starts with `a` and `b`. -/
def fibonacciFrom (a b : Nat) : Nat → Nat
  | 0 => a
  | n + 1 => fibonacciFrom b (a + b) n

def fibonacci : Nat → Nat :=
  fibonacciFrom 0 1

theorem fibonacciFrom_add_two (a b n : Nat) :
    fibonacciFrom a b (n + 2) = fibonacciFrom a b (n + 1) + fibonacciFrom a b n := by
  induction n generalizing a b with
  | zero => simp [fibonacciFrom, Nat.add_comm]
  | succ n ih => exact ih b (a + b)

theorem fibonacci_add_two (n : Nat) : fibonacci (n + 2) = fibonacci (n + 1) + fibonacci n :=
  fibonacciFrom_add_two 0 1 n

end InfixArithmetic
