import EmbedScript.Text.Ranges

/-!
Letter cases beyond ASCII: runs of code points that move by one offset, and the characters whose
other case is several characters long.
-/

namespace EmbedScript.Text

structure Run where
  first : Nat
  last : Nat
  stride : Nat
  offset : Int

/-- The table says of each run how far it lies behind the one before it, its steps and its offset.
Where the steps are negative the run has every other code point. -/
def runsFrom (last : Nat) : List Int → List Run
  | gap :: steps :: offset :: table =>
    let stride := if steps < 0 then 2 else 1
    let first := last + gap.toNat
    let last := first + steps.natAbs * stride
    ⟨first,last,stride,offset⟩ :: runsFrom last table
  | _ => []

def runs (table : List Int) : Array Run := (runsFrom 0 table).toArray

def Run.back (r : Run) : Run := ⟨(r.first + r.offset).toNat,(r.last + r.offset).toNat,r.stride,-r.offset⟩

def upperRuns : Array Run := runs [
  181,0,743,43,22,-32,2,6,-32,1,0,121,2,-23,-1,2,0,-232,2,-2,-1,3,-7,-1,3,-22,-1,3,-2,-1,1,0,-300,
  1,0,195,3,-1,-1,3,0,-1,4,0,-1,6,0,-1,3,0,97,4,0,-1,1,0,163,4,0,130,3,-2,-1,3,0,-1,5,0,-1,3,0,-1,
  4,-1,-1,3,0,-1,4,0,-1,2,0,56,6,0,-1,1,0,-2,2,0,-1,1,0,-2,2,0,-1,1,0,-2,2,-7,-1,1,0,-79,2,-8,-1,3,
  0,-1,1,0,-2,2,0,-1,4,-19,-1,4,-8,-1,9,0,-1,3,1,10815,2,0,-1,5,-4,-1,1,0,10783,1,0,10780,1,0,
  10782,1,0,-210,1,0,-206,2,1,-205,2,0,-202,2,0,-203,1,0,42319,4,0,-205,1,0,42315,2,0,-207,2,0,
  42280,1,0,42308,2,0,-209,1,0,-211,1,0,42308,1,0,10743,1,0,42305,3,0,-211,2,0,10749,1,0,-213,3,0,
  -214,8,0,10727,3,0,-218,2,0,42307,1,0,-218,4,0,42282,1,0,-218,1,0,-69,1,1,-217,1,0,-71,6,0,-219,
  11,0,42261,1,0,42258,167,0,84,44,-1,-1,4,0,-1,4,2,130,47,0,-38,1,2,-37,2,16,-32,1,0,-31,1,8,-32,
  1,0,-64,1,1,-63,2,0,-62,1,0,-57,4,0,-47,1,0,-54,1,0,-8,2,-11,-1,1,0,-86,1,0,-80,1,0,7,1,0,-116,2,
  0,-96,3,0,-1,3,0,-1,53,31,-32,1,15,-80,2,-16,-1,10,-26,-1,3,-6,-1,1,0,-15,2,-47,-1,50,37,-48,
  2890,42,3008,3,2,3008,761,5,-8,2179,0,-6254,1,0,-6253,1,0,-6244,1,1,-6242,1,0,-6243,1,0,-6236,1,
  0,-6181,1,0,35266,241,0,35332,4,0,3814,17,0,35384,115,-74,-1,6,0,-59,6,-47,-1,1,7,8,9,5,8,11,7,8,
  9,7,8,9,5,8,12,-3,8,9,7,8,9,1,74,1,3,86,1,1,100,1,1,128,1,1,112,1,1,126,51,1,8,13,0,-7205,18,1,8,
  15,1,8,4,0,7,361,0,-28,34,15,-16,5,0,-1,844,25,-26,1863,47,-48,2,0,-1,4,0,-10795,1,0,-10792,2,-2,
  -1,7,0,-1,3,0,-1,11,-49,-1,9,-1,-1,5,0,-1,13,37,-7264,2,0,-7264,6,0,-7264,30996,-22,-1,20,-13,-1,
  136,-6,-1,4,-30,-1,11,-1,-1,3,-4,-1,5,0,-1,5,-1,-1,1,0,48,3,-9,-1,12,-7,-1,5,-1,-1,7,0,-1,6,-1,
  -1,29,0,-1,861,0,-928,29,79,-38864,21378,25,-32,1230,39,-40,137,35,-40,156,10,-39,2,14,-39,2,6,
  -39,2,1,-39,1796,50,-64,3022,31,-32,21889,31,-32,31395,33,-34]

/-- The way back from upper case, but for the first runs. -/
def lowerRuns : Array Run := runs [
  452,0,2,1,0,1,2,0,2,1,0,1,2,0,2,1,0,1,38,0,2,1,0,1,423,0,32,3,0,32,7,0,32,81,0,-60,6826,0,-7615,
  234,7,-8,9,7,-8,9,7,-8,13,0,-9,16,0,-9,48,0,-9,298,0,-7517,4,0,-8383,1,0,-8262,34079,0,1] ++ upperRuns.map Run.back

/-- Blocks of eight letters with an iota below each. In upper case it stands behind the letter. -/
def iotaBlocks : List (Nat × Nat) := [(8064,7944),(8072,7944),(8080,7976),(8088,7976),(8096,8040),(8104,8040)]

def upperLong : Array (Nat × List Nat) :=
  (iotaBlocks.flatMap fun b => (List.range 8).map fun i => (b.1 + i,[b.2 + i,921])).toArray ++ #[
  (223,[83,83]),(329,[700,78]),(496,[74,780]),(912,[921,776,769]),(944,[933,776,769]),
  (1415,[1333,1362]),(7830,[72,817]),(7831,[84,776]),(7832,[87,778]),(7833,[89,778]),
  (7834,[65,702]),(8016,[933,787]),(8018,[933,787,768]),(8020,[933,787,769]),(8022,[933,787,834]),
  (8114,[8122,921]),(8115,[913,921]),(8116,[902,921]),(8118,[913,834]),(8119,[913,834,921]),
  (8124,[913,921]),(8130,[8138,921]),(8131,[919,921]),(8132,[905,921]),(8134,[919,834]),
  (8135,[919,834,921]),(8140,[919,921]),(8146,[921,776,768]),(8147,[921,776,769]),(8150,[921,834]),
  (8151,[921,776,834]),(8162,[933,776,768]),(8163,[933,776,769]),(8164,[929,787]),(8166,[933,834]),
  (8167,[933,776,834]),(8178,[8186,921]),(8179,[937,921]),(8180,[911,921]),(8182,[937,834]),
  (8183,[937,834,921]),(8188,[937,921]),(64256,[70,70]),(64257,[70,73]),(64258,[70,76]),
  (64259,[70,70,73]),(64260,[70,70,76]),(64261,[83,84]),(64262,[83,84]),(64275,[1348,1350]),
  (64276,[1348,1333]),(64277,[1348,1339]),(64278,[1358,1350]),(64279,[1348,1341])]

def lowerLong : Array (Nat × List Nat) := #[(304,[105,775])]

def casedRanges : Array (Nat × Nat) := ranges [
  170,0,11,0,5,0,6,22,2,30,2,194,2,3,5,207,2,35,8,1,31,4,97,0,43,3,3,1,3,3,2,0,7,0,2,2,2,0,2,19,2,
  82,2,138,9,165,2,37,10,40,2840,37,2,0,6,0,3,42,2,3,673,85,3,5,2179,8,8,42,3,2,65,191,65,277,3,5,
  3,37,3,5,3,7,2,0,2,0,2,0,2,30,3,52,2,6,2,0,4,2,2,6,4,3,3,5,5,12,6,2,2,6,117,0,14,0,17,12,102,0,5,
  0,3,9,2,0,4,4,7,0,2,0,2,0,2,3,2,5,5,0,3,3,6,4,5,0,18,31,4,1,818,51,1815,228,7,3,4,1,13,37,2,0,6,
  0,30995,45,19,29,133,101,4,3,2,58,6,1,2,0,2,4,25,4,2,2,822,42,2,13,7,79,20289,6,13,4,1034,25,7,
  25,1190,79,97,35,5,35,117,10,2,14,2,6,2,1,2,10,2,14,2,6,2,1,452,0,3,2,2,41,2,8,1222,50,14,50,
  2990,63,21857,63,25985,84,2,70,2,1,3,0,3,1,3,3,2,11,2,0,2,6,2,64,2,3,3,7,2,6,2,27,2,3,2,4,2,0,4,
  6,2,339,3,24,2,24,2,30,2,24,2,30,2,24,2,30,2,24,2,30,2,24,2,7,1845,9,2,19,7,5,262,61,2195,67,
  2029,25,7,25,7,25]

/-- In a word these are passed over and do not extend it, or the other way round. -/
def passedRanges : Array (Nat × Nat) := ranges [
  39,0,7,0,12,0,36,0,2,0,72,0,5,0,2,0,5,0,3,1,504,79,117,1,5,0,10,1,2,0,466,0,6,0,149,0,12,5,23,0,
  36,0,157,0,8,1,41,0,229,1,5,0,32,0,10,0,4,0,96,0,8,1,56,0,25,0,143,0,77,0,25,0,359,0,25,0,103,0,
  25,0,235,0,19,1,104,0,25,0,120,0,16,0,103,0,128,0,566,0,1755,0,55,0,53,0,612,0,142,0,323,5,175,
  62,14,0,35,36,510,0,2,2,12,2,14,2,14,2,14,1,13,0,2,2,9,1,11,0,3,0,3,4,50,4,2,9,2,0,14,0,17,12,
  3040,1,242,0,192,0,470,0,41,1,2,4,6,0,96,3,94,2,28439,0,1251,5,271,0,115,0,29,1,99,33,79,0,24,2,
  104,2,4,1,470,0,23,0,138,0,109,0,22,1,103,4,10,2,20551,16,593,0,63,0,3,0,170,0,8,0,7,0,12,0,36,0,
  2,0,48,0,115,0,22,2,1925,5,2,41,2,8,2307,0,16,0,625,0,25,0,345,0,13,0,242,0,897,0,6912,15,14081,
  3,1104,12,65,1,2,0,16397,3,2,6,2,1,3234,3,5314,0,9,12,3766,61,202,6,942,0,1120,0,2736,4,789506,0]

end EmbedScript.Text
