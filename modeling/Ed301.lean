import Ed301.Theory.Ladder
import Ed301.Theory.Radix
import Ed301.Theory.Pratt
import Ed301.Theory.SquareRoot
import Ed301.Theory.Edwards.Law
import Ed301.Theory.Edwards.Group
import Ed301.Theory.Edwards.Extended
import Ed301.Theory.Cofactored
import Ed301.Theory.Sponge
import Ed301.Theory.Limbs
import Ed301.Theory.Montgomery
import Ed301.Theory.Window
import Ed301.Theory.Program
import Ed301.Theory.Divstep
import Ed301.Theory.Contraction
import Ed301.Core.Uint
import Ed301.Core.Monty
import Ed301.Core.Parameters
import Ed301.Core.Field
import Ed301.Core.Scalar
import Ed301.Core.Edwards
import Ed301.Core.Signature
import Ed301.Core.Keccak
import Ed301.Core.Shake
import Ed301.Core.Limbs
import Ed301.Core.Montgomery
import Ed301.Core.Pow
import Ed301.Core.Extended
import Ed301.Core.Safegcd
import Ed301.Core.LimbScheme
import Ed301.Params.Primes
import Ed301.Params.Curve
import Ed301.Spec.Draft
import Ed301.Spec.Keccak
import Ed301.Spec.Permutation
import Ed301.Refine.Bytes
import Ed301.Refine.Field
import Ed301.Refine.Scalar
import Ed301.Refine.Point
import Ed301.Refine.PointCodec
import Ed301.Refine.Subgroup
import Ed301.Refine.Signature
import Ed301.Refine.Signing
import Ed301.Refine.Keccak
import Ed301.Refine.Shake
import Ed301.Refine.Sha3
import Ed301.Refine.Limbs
import Ed301.Refine.Montgomery
import Ed301.Refine.Square
import Ed301.Refine.MontyForm
import Ed301.Refine.Pow
import Ed301.Refine.Extended
import Ed301.Refine.SignedInt
import Ed301.Refine.Safegcd
import Ed301.Refine.LimbScheme
import Ed301.Results.Points
import Ed301.Results.Arithmetic
import Ed301.Results.Codec
import Ed301.Results.Scalars
import Ed301.Results.Parsing
import Ed301.Results.Verification
import Ed301.Results.Signing
import Ed301.Results.Hash
import Ed301.Results.Montgomery
import Ed301.Results.Limbs
import Ed301.Results.Inversion
import Ed301.Results.Machine
