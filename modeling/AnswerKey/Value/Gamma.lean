import AnswerKey.Value.Elementary

/-! The gamma function, factorials and binomial coefficients. -/
namespace AnswerKey.Value

/-- The coefficients of a Lanczos series for `lanczosShift`, without the first. -/
def lanczosCoefficients : List Double :=
  [676.5203681218851, -1259.1392167224028, 771.3234287776531, -176.6150291621406,
   12.507343278686905, -0.13857109526572012, 9.984369578019572e-6, 1.5056327351493116e-7]

def lanczosStart : Double := 0.9999999999998099

def lanczosShift : Double := 7

def lanczosSum (z total : Complex) (i : Nat) : List Double → Complex
  | [] => total
  | c :: rest => lanczosSum z (total + c / (z + Double.ofNat i)) (i + 1) rest

def gammaRight (z : Complex) : Complex :=
  let z := z - (1 : Double)
  let series := lanczosSum z ⟨lanczosStart, 0⟩ 1 lanczosCoefficients
  let t := z + lanczosShift + (0.5 : Double)
  (2 * pi).sqrt * t.pow (z + (0.5 : Double)) * (-t).exp * series

/-- The gamma function; the left half of the plane is reflected to the right. -/
def complexGamma (z : Complex) : Complex :=
  if z.re < 0.5 then
    let p := Complex.ofReal pi
    p / ((p * z).sin * gammaRight ((1 : Double) - z))
  else
    gammaRight z

def gamma : Value → Evaluated Value
  | real x =>
    if x ≤ 0 && (integer? x).isSome then .error (.domain .gammaPole)
    else if 171.7 < x then .ok (real (Double.infinity false))
    else .ok (real (complexGamma (.ofReal x)).re)
  | complex z => .ok (ofComplex (complexGamma z))

def risingProduct (total : Double) (k : Nat) : Nat → Double
  | 0 => total
  | count + 1 => risingProduct (total * Double.ofNat (k + 1)) (k + 1) count

def largestFactorial : Nat := 170

def factorial : Value → Evaluated Value
  | real x =>
    match integer? x with
    | some (.ofNat n) =>
      .ok (real (if largestFactorial < n then Double.infinity false else risingProduct 1 0 n))
    | _ => .error (.domain .factorial)
  | complex _ => .error (.domain .factorial)

/-- The product of `(n - i) / (i + 1)` over `count` indices from `i` on. -/
def fallingProduct (n total : Double) (i : Nat) : Nat → Double
  | 0 => total
  | count + 1 =>
    fallingProduct n (total * ((n - Double.ofNat i) / Double.ofNat (i + 1))) (i + 1) count

/-- Integers below this are multiplied out in a binomial coefficient. -/
def largestBinomialProduct : Nat := 100000

def isNaturalBelow (k : Nat) (x : Double) : Bool :=
  match integer? x with
  | some (.ofNat n) => n < k
  | _ => false

def binomialByGamma (n k : Double) : Evaluated Value := do
  let top ← gamma (real (n + 1))
  let left ← gamma (real (k + 1))
  let right ← gamma (real (n - k + 1))
  divide top (multiply left right)

def binomial (top bottom : Value) : Evaluated Value :=
  match top, bottom with
  | real n, real x =>
    match integer? x with
    | some (.negSucc _) => .ok (real 0)
    | some (.ofNat k) =>
      if k ≤ largestBinomialProduct then
        .ok (real (if isNaturalBelow k n then 0 else fallingProduct n 1 0 k))
      else
        binomialByGamma n x
    | none => binomialByGamma n x
  | _, _ => .error (.domain .complexBinomial)

end AnswerKey.Value
