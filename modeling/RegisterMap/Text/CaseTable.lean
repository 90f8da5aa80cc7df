/-! # Letter case outside ASCII

Most letters above `0x7f` lie a fixed distance from their other case, and they come in runs: every
code point of a range, or every second one where the cases alternate.  A few become more than one
letter.  Whether a capital sigma ends a word depends on the letters around it, so the letters with
a case and the characters that stand between them without counting are listed too. -/

namespace RegisterMap.Text

/-- Letters `first, first + step, …, last` with their other case at one distance. -/
structure CaseRun where
  first : Nat
  last : Nat
  step : Nat
  distance : Int

namespace CaseRun

def has (run : CaseRun) (code : Nat) : Bool :=
  decide (run.first ≤ code) && decide (code ≤ run.last) && (code - run.first) % run.step == 0

/-- The run from the other case back. -/
def turned (run : CaseRun) : CaseRun :=
  let other (code : Nat) : Nat := (code + run.distance).toNat
  ⟨other run.first, other run.last, run.step, -run.distance⟩

/-- The runs of a table from `start` on: code points skipped, letters, step, distance. -/
def ofTable : (start : Nat) → List (Nat × Nat × Nat × Int) → List CaseRun
  | _, [] => []
  | start, (skip, count, step, distance) :: rest =>
    let last := start + skip + (count - 1) * step
    ⟨start + skip, last, step, distance⟩ :: ofTable (last + 1) rest

end CaseRun

/-- Lower-case letters whose upper case leads back. -/
def pairedCases : List (Nat × Nat × Nat × Int) :=
  [(96,23,1,-32),(1,7,1,-32),(0,1,1,121),(1,24,2,-1),(3,3,2,-1),(2,8,2,-1),(2,23,2,-1),(2,3,2,-1),
   (1,1,1,195),(2,2,2,-1),(2,1,1,-1),(3,1,1,-1),(5,1,1,-1),(2,1,1,97),(3,1,1,-1),(0,1,1,163),
   (3,1,1,130),(2,3,2,-1),(2,1,1,-1),(4,1,1,-1),(2,1,1,-1),(3,2,2,-1),(2,1,1,-1),(3,1,1,-1),
   (1,1,1,56),(6,1,1,-2),(2,1,1,-2),(2,1,1,-2),(1,8,2,-1),(0,1,1,-79),(1,9,2,-1),(3,1,1,-2),
   (1,1,1,-1),(3,20,2,-1),(3,9,2,-1),(8,1,1,-1),(2,2,1,10815),(1,1,1,-1),(4,5,2,-1),(0,1,1,10783),
   (0,1,1,10780),(0,1,1,10782),(0,1,1,-210),(0,1,1,-206),(1,2,1,-205),(1,1,1,-202),(1,1,1,-203),
   (0,1,1,42319),(3,1,1,-205),(0,1,1,42315),(1,1,1,-207),(1,1,1,42280),(0,1,1,42308),(1,1,1,-209),
   (0,1,1,-211),(0,1,1,42308),(0,1,1,10743),(0,1,1,42305),(2,1,1,-211),(1,1,1,10749),(0,1,1,-213),
   (2,1,1,-214),(7,1,1,10727),(2,1,1,-218),(1,1,1,42307),(0,1,1,-218),(3,1,1,42282),(0,1,1,-218),
   (0,1,1,-69),(0,2,1,-217),(0,1,1,-71),(5,1,1,-219),(10,1,1,42261),(0,1,1,42258),(210,2,2,-1),
   (3,1,1,-1),(3,3,1,130),(46,1,1,-38),(0,3,1,-37),(1,17,1,-32),(1,9,1,-32),(0,1,1,-64),
   (0,2,1,-63),(8,1,1,-8),(1,12,2,-1),(2,1,1,7),(0,1,1,-116),(4,1,1,-1),(2,1,1,-1),(52,32,1,-32),
   (0,16,1,-80),(1,17,2,-1),(9,27,2,-1),(2,7,2,-1),(0,1,1,-15),(1,48,2,-1),(49,38,1,-48),
   (2889,43,1,3008),(2,3,1,3008),(760,6,1,-8),(2427,1,1,35332),(3,1,1,3814),(16,1,1,35384),
   (114,75,2,-1),(11,48,2,-1),(0,8,1,8),(8,6,1,8),(10,8,1,8),(8,8,1,8),(8,6,1,8),(11,4,2,8),
   (8,8,1,8),(8,2,1,74),(0,4,1,86),(0,2,1,100),(0,2,1,128),(0,2,1,112),(0,2,1,126),(50,2,1,8),
   (30,2,1,8),(14,2,1,8),(3,1,1,7),(360,1,1,-28),(33,16,1,-16),(4,1,1,-1),(843,26,1,-26),
   (1862,48,1,-48),(1,1,1,-1),(3,1,1,-10795),(0,1,1,-10792),(1,3,2,-1),(6,1,1,-1),(2,1,1,-1),
   (10,50,2,-1),(8,2,2,-1),(4,1,1,-1),(12,38,1,-7264),(1,1,1,-7264),(5,1,1,-7264),(30995,23,2,-1),
   (19,14,2,-1),(135,7,2,-1),(3,31,2,-1),(10,2,2,-1),(2,5,2,-1),(4,1,1,-1),(4,2,2,-1),(0,1,1,48),
   (2,10,2,-1),(11,8,2,-1),(4,2,2,-1),(6,1,1,-1),(5,2,2,-1),(28,1,1,-1),(860,1,1,-928),
   (28,80,1,-38864),(21377,26,1,-32),(1229,40,1,-40),(136,36,1,-40),(155,11,1,-39),(1,15,1,-39),
   (1,7,1,-39),(1,2,1,-39),(1795,51,1,-64),(3021,32,1,-32),(21888,32,1,-32),(31394,34,1,-34)]

/-- Letters whose upper case leads to another letter, or is none. -/
def upperOnly : List (Nat × Nat × Nat × Int) :=
  [(53,1,1,743),(123,1,1,-232),(77,1,1,-300),(69,1,1,-1),(2,1,1,-1),(2,1,1,-1),(38,1,1,-1),
   (338,1,1,84),(124,1,1,-31),(13,1,1,-62),(0,1,1,-57),(3,1,1,-47),(0,1,1,-54),(25,1,1,-86),
   (0,1,1,-80),(3,1,1,-96),(6282,1,1,-6254),(0,1,1,-6253),(0,1,1,-6244),(0,2,1,-6242),
   (0,1,1,-6243),(0,1,1,-6236),(0,1,1,-6181),(0,1,1,35266),(530,1,1,-59),(290,1,1,-7205)]

/-- Letters whose lower case leads to another letter. -/
def lowerOnly : List (Nat × Nat × Nat × Int) :=
  [(325,1,1,1),(2,1,1,1),(2,1,1,1),(38,1,1,1),(513,1,1,-60),(6825,1,1,-7615),(233,8,1,-8),
   (8,8,1,-8),(8,8,1,-8),(12,1,1,-9),(15,1,1,-9),(47,1,1,-9),(297,1,1,-7517),(3,1,1,-8383),
   (0,1,1,-8262)]

def upperRuns : List CaseRun :=
  CaseRun.ofTable 0x80 pairedCases ++ CaseRun.ofTable 0x80 upperOnly

def lowerRuns : List CaseRun :=
  (CaseRun.ofTable 0x80 pairedCases).map CaseRun.turned ++ CaseRun.ofTable 0x80 lowerOnly

/-- Letters whose upper case is several letters. -/
def upperGroups : List (Nat × List Nat) :=
  [(223,[83,83]),(329,[700,78]),(496,[74,780]),(912,[921,776,769]),(944,[933,776,769]),
   (1415,[1333,1362]),(7830,[72,817]),(7831,[84,776]),(7832,[87,778]),(7833,[89,778]),
   (7834,[65,702]),(8016,[933,787]),(8018,[933,787,768]),(8020,[933,787,769]),(8022,[933,787,834]),
   (8064,[7944,921]),(8065,[7945,921]),(8066,[7946,921]),(8067,[7947,921]),(8068,[7948,921]),
   (8069,[7949,921]),(8070,[7950,921]),(8071,[7951,921]),(8072,[7944,921]),(8073,[7945,921]),
   (8074,[7946,921]),(8075,[7947,921]),(8076,[7948,921]),(8077,[7949,921]),(8078,[7950,921]),
   (8079,[7951,921]),(8080,[7976,921]),(8081,[7977,921]),(8082,[7978,921]),(8083,[7979,921]),
   (8084,[7980,921]),(8085,[7981,921]),(8086,[7982,921]),(8087,[7983,921]),(8088,[7976,921]),
   (8089,[7977,921]),(8090,[7978,921]),(8091,[7979,921]),(8092,[7980,921]),(8093,[7981,921]),
   (8094,[7982,921]),(8095,[7983,921]),(8096,[8040,921]),(8097,[8041,921]),(8098,[8042,921]),
   (8099,[8043,921]),(8100,[8044,921]),(8101,[8045,921]),(8102,[8046,921]),(8103,[8047,921]),
   (8104,[8040,921]),(8105,[8041,921]),(8106,[8042,921]),(8107,[8043,921]),(8108,[8044,921]),
   (8109,[8045,921]),(8110,[8046,921]),(8111,[8047,921]),(8114,[8122,921]),(8115,[913,921]),
   (8116,[902,921]),(8118,[913,834]),(8119,[913,834,921]),(8124,[913,921]),(8130,[8138,921]),
   (8131,[919,921]),(8132,[905,921]),(8134,[919,834]),(8135,[919,834,921]),(8140,[919,921]),
   (8146,[921,776,768]),(8147,[921,776,769]),(8150,[921,834]),(8151,[921,776,834]),
   (8162,[933,776,768]),(8163,[933,776,769]),(8164,[929,787]),(8166,[933,834]),
   (8167,[933,776,834]),(8178,[8186,921]),(8179,[937,921]),(8180,[911,921]),(8182,[937,834]),
   (8183,[937,834,921]),(8188,[937,921]),(64256,[70,70]),(64257,[70,73]),(64258,[70,76]),
   (64259,[70,70,73]),(64260,[70,70,76]),(64261,[83,84]),(64262,[83,84]),(64275,[1348,1350]),
   (64276,[1348,1333]),(64277,[1348,1339]),(64278,[1358,1350]),(64279,[1348,1341])]

/-- Letters whose lower case is several letters. -/
def lowerGroups : List (Nat × List Nat) :=
  [(0x130,[0x69,0x307])]

/-- Letters that are upper, lower or title case. -/
def casedRuns : List Nat :=
  [42,1,10,1,4,1,5,23,1,31,1,195,1,4,4,208,1,27,192,4,2,2,3,3,1,1,6,1,1,3,1,1,1,20,1,83,1,139,8,
   166,1,38,9,41,2839,38,1,1,5,1,2,43,2,3,672,86,2,6,2178,9,7,43,2,3,64,44,63,13,1,34,101,278,2,6,
   2,38,2,6,2,8,1,1,1,1,1,1,1,31,2,53,1,7,1,1,3,3,1,7,3,4,2,6,4,13,5,3,1,7,261,1,4,1,2,10,1,1,3,5,
   6,1,1,1,1,1,1,4,1,6,4,1,2,4,5,5,4,1,17,32,3,2,817,52,1814,124,2,103,6,4,3,2,12,38,1,1,5,1,30994,
   46,18,28,134,78,1,23,3,4,1,59,5,2,1,1,1,5,27,2,3,1,821,43,5,9,7,80,20288,7,12,5,1033,26,6,26,
   1189,80,96,36,4,36,116,11,1,15,1,7,1,2,1,11,1,15,1,7,1,2,1731,51,13,51,2989,64,21856,64,25984,
   85,1,71,1,2,2,1,2,2,2,4,1,12,1,1,1,7,1,65,1,4,2,8,1,7,1,28,1,4,1,5,1,1,3,7,1,340,2,25,1,25,1,31,
   1,25,1,31,1,25,1,31,1,25,1,31,1,25,1,8,1844,10,1,20,2529,68,2028,26,6,26,6,26]

/-- Marks and signs that do not count around a letter. -/
def caseIgnorableRuns : List Nat :=
  [40,1,4,1,1,1,4,1,2,2,503,192,4,2,4,1,9,2,1,1,251,7,207,1,5,1,49,45,1,1,1,2,1,2,1,1,44,1,11,6,10,
   11,1,1,35,1,10,21,16,1,101,8,1,10,1,4,33,1,1,1,30,27,91,11,58,11,4,1,2,1,24,24,43,3,44,1,7,2,6,
   8,41,58,55,1,1,1,4,8,4,1,3,7,10,2,13,1,15,1,58,1,4,4,8,1,20,2,26,1,2,2,57,1,4,2,4,2,2,3,3,1,30,
   2,3,1,11,2,57,1,4,5,1,2,4,1,20,2,22,6,1,1,58,1,2,1,1,4,8,1,7,2,11,2,30,1,61,1,12,1,50,1,3,1,55,
   1,1,3,5,3,1,4,7,2,11,2,29,1,58,1,2,1,6,1,5,2,20,2,28,2,57,2,4,4,8,1,20,2,29,1,72,1,7,3,1,1,90,1,
   2,7,11,9,98,1,2,9,9,1,1,6,74,2,27,1,1,1,1,1,55,14,1,5,1,2,5,11,1,36,9,1,102,4,1,6,1,2,2,2,25,2,
   4,3,16,4,13,1,2,2,6,1,15,1,94,1,608,3,946,3,29,2,30,2,30,2,64,2,1,7,8,1,2,11,3,1,5,1,45,5,51,1,
   65,2,34,1,118,3,4,2,9,1,6,3,219,2,2,1,58,1,1,7,1,1,1,1,2,8,6,10,2,1,39,1,8,31,49,4,48,1,1,5,1,1,
   5,1,40,9,12,2,32,4,2,2,1,3,56,1,1,2,3,1,1,3,58,8,2,2,64,6,82,3,1,13,1,7,4,1,6,1,3,2,50,63,13,1,
   34,101,445,1,1,3,11,3,13,3,13,3,13,2,12,5,8,2,10,1,2,1,2,5,49,5,1,10,1,1,13,1,16,13,51,33,2955,
   2,113,3,125,1,15,1,96,32,47,1,469,1,36,4,3,5,5,1,93,6,93,3,28438,1,1250,6,270,1,98,4,1,10,1,1,
   28,4,80,2,14,34,78,1,23,3,103,3,3,2,8,1,3,1,4,1,25,2,5,1,151,2,26,18,13,1,38,8,25,11,46,3,48,1,
   2,4,2,2,17,1,21,2,66,6,2,2,2,2,12,1,8,1,35,1,11,1,51,1,1,3,2,2,5,2,1,1,27,1,14,2,5,2,1,1,100,5,
   9,3,121,1,2,1,4,1,20272,1,147,17,573,16,3,1,12,16,34,1,2,1,169,1,7,1,6,1,11,1,35,1,1,1,47,1,45,
   2,67,1,21,3,513,1,226,1,149,5,1029,6,1,42,1,9,582,3,1,2,5,4,40,3,4,1,165,2,573,4,387,2,153,11,
   49,4,123,1,54,15,41,1,2,2,10,3,49,4,2,2,2,1,4,1,10,1,50,3,36,5,1,8,62,1,12,2,52,9,10,4,2,1,95,3,
   2,1,1,2,6,1,160,1,3,8,21,2,57,2,3,1,37,7,3,5,195,8,2,3,1,1,23,1,84,6,1,1,4,2,1,2,238,4,6,2,1,2,
   27,2,85,8,2,1,1,2,106,1,1,1,2,6,1,1,101,3,2,4,1,5,259,9,1,2,256,2,1,1,4,1,144,4,2,2,4,1,32,10,
   40,6,2,4,8,1,9,6,2,3,46,13,1,2,406,7,1,6,1,1,82,22,2,7,1,2,1,2,122,6,3,1,1,2,1,7,1,1,72,2,3,1,1,
   1,347,2,5435,9,14007,5,59,7,9,4,1035,1,63,17,64,2,1,2,16395,4,1,7,1,2,3230,2,1,4,4700,46,2,23,
   544,3,9,16,2,7,30,4,148,3,1979,55,4,50,8,1,14,1,22,5,1,15,1360,7,1,17,2,7,1,2,1,5,261,14,368,1,
   61,4,1504,7,109,8,2735,5,789505,1,30,96,128,240]

end RegisterMap.Text
