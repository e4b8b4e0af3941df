import Orchestrion.Pattern.CharClass

/-!
# Upper and lower case

Which code points differ in case only. Most of them come in pairs, and the pairs in runs of equal
distance; the others come in threes and fours.
-/

namespace Orchestrion.Pattern

/-- Code points at equal distances, each with one of the other case. -/
structure CaseRun where
  first : Nat
  count : Nat
  step : Nat
  /-- How far ahead the other case is. -/
  shift : Nat
deriving DecidableEq, Repr

namespace CaseRun

def ofNumbers : List Nat → List CaseRun
  | first :: count :: step :: shift :: rest => ⟨first, count, step, shift⟩ :: ofNumbers rest
  | _ => []

def counterparts (r : CaseRun) (start target : Nat) (range : Nat × Nat) : List (Nat × Nat) :=
  if range.2 < start || start + r.step * (r.count - 1) < range.1 then []
  else
    let low := (range.1 - start + (r.step - 1)) / r.step
    let high := min (r.count - 1) ((range.2 - start) / r.step)
    if r.step = 1 then [(target + low, target + high)]
    else (List.range' low (high + 1 - low)).map fun i => (target + r.step * i, target + r.step * i)

def otherCases (r : CaseRun) (range : Nat × Nat) : List (Nat × Nat) :=
  r.counterparts r.first (r.first + r.shift) range
    ++ r.counterparts (r.first + r.shift) r.first range

end CaseRun

def caseRuns : List CaseRun := CaseRun.ofNumbers <| listedNumbers none <| String.toList <|
    "65jaF76gaF84gaF192eaF198qaF216gaF223aa7615 255aa121 256xba306cba313hba330wba377cba384aa195 " ++
    "385aa210 386bba390aa206 391aaa393ba205 395aaa398aa79 399aa202 400aa203 401aaa403aa205 404aa" ++
    "207 405aa97 406aa211 407aa209 408aaa410aa163 411aa42561 412aa211 413aa213 414aa130 415aa214" ++
    " 416cba422aa218 423aaa425aa218 428aaa430aa218 431aaa433ba217 435bba439aa219 440aaa444aaa447" ++
    "aa56 461hba478iba500aaa504tba546iba570aa10795 571aaa574aa10792 575ba10815 577aaa580aa69 581" ++
    "aa71 582eba592aa10783 593aa10780 594aa10782 604aa42319 609aa42315 612aa42343 613aa42280 614" ++
    "aa42308 618aa42308 619aa10743 620aa42305 625aa10749 637aa10727 642aa42307 647aa42282 669aa4" ++
    "2261 670aa42258 880bba886aaa891ca130 895aa116 902aaL904caK908aa64 910ba63 912aa7235 913bbF9" ++
    "16bbF919aaF923bbF926baF932baF935baF938baF944aa7219 975aah984lba1010aag1015aaa1018aaa1024pa8" ++
    "0 1040baF1043bbF1046haF1055baF1059gaF1067eaF1120aaa1124oba1162Aba1216aao1217gba1232Vba1329L" ++
    "aV4256La7264 4295aa7264 4301aa7264 4304Qa3008 4349ca3008 5024 80a38864 5104fah7305aaa7545aa" ++
    "35332 7549aa3814 7566aa35384 7680Vba7778zba7840Vba7936hah7952fah7968hah7984hah8000fah8017db" ++
    "h8032hah8048ba74 8050da86 8054ba100 8056ba128 8058ba112 8060ba126 8064hah8080hah8096hah8112" ++
    "bah8115aai8131aai8144bah8160bah8165aag8179aai8498aaB8544pap8579aaa9398zaz11264VaV11360aaa11" ++
    "367cba11378aaa11381aaa11392Xba11499bba11506aaa42560eba42572qba42624nba42786gba42802Eba42873" ++
    "bba42878eba42891aaa42896bba42900aaV42902jba42931aa928 42932hba42951bba42956hba42997aaa64261" ++
    "aaa65313zaF66560NaN66736JaN66928kaM66940oaM66956gaM66964baM68736Ya64 68944vaF71840FaF93760F" ++
    "aF93856yaA125184HaH"

def caseGroups : List (List Nat) :=
  [[75, 107, 8490], [83, 115, 383], [181, 924, 956], [197, 229, 8491], [452, 453, 454],
    [455, 456, 457], [458, 459, 460], [497, 498, 499], [837, 921, 953, 8126], [914, 946, 976],
    [917, 949, 1013], [920, 952, 977, 1012], [922, 954, 1008], [928, 960, 982], [929, 961, 1009],
    [931, 962, 963], [934, 966, 981], [937, 969, 8486], [1042, 1074, 7296], [1044, 1076, 7297],
    [1054, 1086, 7298], [1057, 1089, 7299], [1058, 1090, 7300, 7301], [1066, 1098, 7302],
    [1122, 1123, 7303], [7304, 42570, 42571], [7776, 7777, 7835]]

namespace CharClass

def otherCases (range : Nat × Nat) : List (Nat × Nat) :=
  caseRuns.flatMap (fun r => r.otherCases range)
    ++ (caseGroups.filter fun ns => ns.any fun n => range.1 ≤ n && n ≤ range.2).flatMap
      fun ns => ns.map fun n => (n, n)

def folded (k : CharClass) : CharClass := k.union (ofRanges (k.flatMap otherCases))

def ofPoint (n : Nat) (fold : Bool) : CharClass := if fold then folded [(n, n)] else [(n, n)]

def letter? (k : CharClass) : Option (Nat × Bool) :=
  match k with
  | [(n, m)] =>
    if n = m then some (n, false)
    else if m = n + 1 && k = ofPoint n true then some (n, true)
    else none
  | [(n, m), (n', m')] =>
    if n = m && n' = m' && k = ofPoint n true then some (n, true) else none
  | _ => none

end CharClass

def leastCase (n : Nat) : Nat :=
  if n < 128 then if 97 ≤ n && n ≤ 122 then n - 32 else n
  else ((CharClass.ofPoint n true).head?.map Prod.fst).getD n

end Orchestrion.Pattern
