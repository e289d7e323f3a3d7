import Mathlib.Data.List.Basic

/-! # Hardforks

The hardforks of `packages/common` and the EIPs that each of them activates.
-/

namespace EthereumJS

inductive Hardfork
  | chainstart
  | homestead
  | dao
  | tangerineWhistle
  | spuriousDragon
  | byzantium
  | constantinople
  | petersburg
  | istanbul
  | muirGlacier
  | berlin
  | london
  | arrowGlacier
  | grayGlacier
  | paris
  | mergeNetsplitBlock
  | shanghai
  | cancun
  | prague
  | osaka
  | bpo1
  | bpo2
  | amsterdam
  deriving DecidableEq

namespace Hardfork

/-- The hardforks in the order in which they come. -/
def schedule : List Hardfork :=
  [chainstart, homestead, dao, tangerineWhistle, spuriousDragon, byzantium, constantinople,
    petersburg, istanbul, muirGlacier, berlin, london, arrowGlacier, grayGlacier, paris,
    mergeNetsplitBlock, shanghai, cancun, prague, osaka, bpo1, bpo2, amsterdam]

def eips : Hardfork → List Nat
  | chainstart => [1]
  | homestead => [606]
  | tangerineWhistle => [608]
  | spuriousDragon => [607]
  | byzantium => [609]
  | constantinople => [1013]
  | petersburg => [1716]
  | istanbul => [1679]
  | muirGlacier => [2384]
  | berlin => [2565, 2929, 2718, 2930]
  | london => [1559, 3198, 3529, 3541]
  | arrowGlacier => [4345]
  | grayGlacier => [5133]
  | paris => [3675, 4399]
  | shanghai => [3651, 3855, 3860, 4895]
  | cancun => [1153, 4844, 4788, 5656, 6780, 7516]
  | prague => [2537, 2935, 6110, 7002, 7251, 7623, 7685, 7691, 7702]
  | osaka => [7594, 7823, 7825, 7883, 7892, 7939, 7951, 7918]
  | amsterdam => [7708, 7843, 7778, 7928, 7954, 7976, 7981, 8024, 8037]
  | dao | mergeNetsplitBlock | bpo1 | bpo2 => []

def gteHardfork (hardfork1 hardfork2 : Hardfork) : Bool :=
  schedule.idxOf hardfork2 ≤ schedule.idxOf hardfork1

def isActivatedEIP (hardfork : Hardfork) (eip : Nat) : Bool :=
  schedule.any fun hf => hardfork.gteHardfork hf && hf.eips.contains eip

end Hardfork

end EthereumJS
