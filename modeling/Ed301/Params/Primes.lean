import Ed301.Core.Scalar
import Ed301.Core.Field
import Ed301.Theory.Pratt

/-!
# Primality of the Moduli

Both moduli are prime, each by a chain of certificates. The chains list the
primes above a million that occur in the recursive factorisations of
`p - 1` and `L - 1`, smallest level first, ending in the modulus itself.

Nothing above this file assumes a modulus to be prime. The instances make
`ZMod fieldModulus` and `ZMod scalarModulus` fields everywhere else.

## Main definitions

* `fieldChain`: The chain ending in the field modulus.
* `scalarChain`: The chain ending in the subgroup order.

## Theorems

* `prime_fieldModulus`: The field modulus is prime.
* `prime_scalarModulus`: The subgroup order is prime.
-/

namespace Ed301

open Pratt

/-- The primes above a million below the field modulus. -/
def fieldChain : List Link :=
  [ { number := 5685857
      base := 3
      factors := [(2, 5), (11, 1), (29, 1), (557, 1)] },
    { number := 191788873
      base := 5
      factors := [(2, 3), (3, 1), (11, 2), (211, 1), (313, 1)] },
    { number := 29854751
      base := 17
      factors := [(2, 1), (5, 3), (119419, 1)] },
    { number := 143661061813
      base := 2
      factors := [(2, 2), (3, 1), (401, 1), (29854751, 1)] },
    { number := 7096889
      base := 3
      factors := [(2, 3), (17, 1), (52183, 1)] },
    { number := 22694655847
      base := 3
      factors := [(2, 1), (3, 1), (47, 1), (883, 1), (91141, 1)] },
    { number := 255153919503887578658321479
      base := 3
      factors := [(2, 1), (3, 3), (3643, 1), (8053, 1), (7096889, 1), (22694655847, 1)] },
    { number := 5865121
      base := 7
      factors := [(2, 5), (3, 2), (5, 1), (4073, 1)] },
    { number := 8305181
      base := 2
      factors := [(2, 2), (5, 1), (13, 1), (17, 1), (1879, 1)] },
    { number := 80329141
      base := 2
      factors := [(2, 2), (3, 2), (5, 1), (446273, 1)] },
    { number := 298118808308234661188257117913
      base := 3
      factors := [(2, 3), (13, 1), (19, 1), (38557, 1), (5865121, 1), (8305181, 1),
        (80329141, 1)] },
    { number := fieldModulus
      base := 2
      factors := [(2, 1), (5, 1), (19, 1), (757, 1), (2377, 1), (5685857, 1), (191788873, 1),
        (143661061813, 1), (255153919503887578658321479, 1), (298118808308234661188257117913,
        1)] } ]

/-- The primes above a million below the subgroup order. -/
def scalarChain : List Link :=
  [ { number := 92626769
      base := 3
      factors := [(2, 4), (13, 1), (445321, 1)] },
    { number := 23847132186127
      base := 3
      factors := [(2, 1), (3, 2), (14303, 1), (92626769, 1)] },
    { number := 12257425943669279
      base := 7
      factors := [(2, 1), (257, 1), (23847132186127, 1)] },
    { number := 8071538763312550939901261
      base := 2
      factors := [(2, 2), (5, 1), (151, 1), (218047, 1), (12257425943669279, 1)] },
    { number := 2001953
      base := 3
      factors := [(2, 5), (73, 1), (857, 1)] },
    { number := 568554653
      base := 2
      factors := [(2, 2), (71, 1), (2001953, 1)] },
    { number := 401854544725549213
      base := 5
      factors := [(2, 2), (3, 2), (11, 2), (211, 1), (769, 1), (568554653, 1)] },
    { number := 10140257736222944349715877
      base := 2
      factors := [(2, 2), (389, 1), (16217, 1), (401854544725549213, 1)] },
    { number := 278912014181
      base := 2
      factors := [(2, 2), (5, 1), (18133, 1), (769073, 1)] },
    { number := 58658692871
      base := 17
      factors := [(2, 1), (5, 1), (53, 1), (691, 1), (160169, 1)] },
    { number := 2011350031566662357
      base := 2
      factors := [(2, 2), (1877, 1), (4567, 1), (58658692871, 1)] },
    { number := 498158843412220847318631521539897
      base := 10
      factors := [(2, 3), (3, 1), (37, 1), (278912014181, 1), (2011350031566662357, 1)] },
    { number := scalarModulus
      base := 3
      factors := [(2, 1), (3, 1), (83, 1), (103, 1), (487, 1), (8071538763312550939901261, 1),
        (10140257736222944349715877, 1), (498158843412220847318631521539897, 1)] } ]

theorem prime_fieldModulus : fieldModulus.Prime := by
  have hchain : checkChain 1000 [] fieldChain = true := by decide +kernel
  have hlast := prime_of_checkChain 1000 fieldChain [] (fun q hq => absurd hq List.not_mem_nil)
    hchain (fieldChain.getLast (by decide)) (List.getLast_mem _)
  exact hlast

theorem prime_scalarModulus : scalarModulus.Prime := by
  have hchain : checkChain 1000 [] scalarChain = true := by decide +kernel
  have hlast := prime_of_checkChain 1000 scalarChain [] (fun q hq => absurd hq List.not_mem_nil)
    hchain (scalarChain.getLast (by decide)) (List.getLast_mem _)
  exact hlast

instance : Fact fieldModulus.Prime := ⟨prime_fieldModulus⟩

instance : Fact scalarModulus.Prime := ⟨prime_scalarModulus⟩

end Ed301
