/-! Composite Gauss-Legendre quadrature with five nodes in each panel, over any
arithmetic. -/
namespace AnswerKey.Evaluation

def natural {R : Type} [OfScientific R] (n : Nat) : R := OfScientific.ofScientific n false 0

section Quadrature

variable {R V ε : Type} [Add R] [Sub R] [Mul R] [Div R] [Neg R] [OfScientific R]
  [Add V] [OfNat V 0] [HMul V R V]

def gaussLegendre : List (R × R) :=
  [(0.0, 0.5688888888888889),
   (-0.5384693101056831, 0.4786286704993665),
   (0.5384693101056831, 0.4786286704993665),
   (-0.906179845938664, 0.2369268850561891),
   (0.906179845938664, 0.2369268850561891)]

/-- A panel's part of an integral, added to the parts before it. A substitution
gives for a point the argument of the integrand and its derivative there. -/
def addPanel (substitution : R → R × R) (f : R → Except ε V) (middle halfWidth : R)
    (total : V) : Except ε V :=
  gaussLegendre.foldlM (fun total (node, weight) => do
    let (x, derivative) := substitution (middle + halfWidth * node)
    let value ← f x
    return total + value * (weight * derivative * halfWidth)) total

def halfWidthOf (panels : Nat) (a b : R) : R := 0.5 * (b - a) / natural panels

def middleOf (a halfWidth : R) (panel : Nat) : R := a + natural (2 * panel + 1) * halfWidth

/-- The integral of `f` after a substitution, over `[a, b]` in at least one
panel. -/
def quadrature (panels : Nat) (a b : R) (substitution : R → R × R) (f : R → Except ε V) :
    Except ε V :=
  let panels := max 1 panels
  let halfWidth := halfWidthOf panels a b
  (List.range panels).foldlM
    (fun total panel => addPanel substitution f (middleOf a halfWidth panel) halfWidth total) 0

inductive Bounds (R : Type) where
  | between (a b : R)
  | above (a : R)
  | below (b : R)
  | everywhere

def stretch (t : R) : R := t / (1.0 - t)

def stretchDerivative (t : R) : R := 1.0 / ((1.0 - t) * (1.0 - t))

/-- The integral of `f`. An infinite end is brought to the unit interval by a
substitution. -/
def integralOver (panels : Nat) (bounds : Bounds R) (f : R → Except ε V) : Except ε V :=
  match bounds with
  | .between a b => quadrature panels a b (fun t => (t, 1.0)) f
  | .above a => quadrature panels 0.0 1.0 (fun t => (a + stretch t, stretchDerivative t)) f
  | .below b => quadrature panels 0.0 1.0 (fun t => (b - stretch t, stretchDerivative t)) f
  | .everywhere => do
    let below ← quadrature panels 0.0 1.0 (fun t => (-stretch t, stretchDerivative t)) f
    let above ← quadrature panels 0.0 1.0 (fun t => (stretch t, stretchDerivative t)) f
    return below + above

end Quadrature

end AnswerKey.Evaluation
