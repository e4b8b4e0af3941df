import Orchestrion.Pattern.LetterCase

/-!
# Scripts

The scripts of Unicode.
-/

namespace Orchestrion.Pattern

def scriptCounts : List (String × String) :=
  [("adlam", "125184 76djdb"),
    ("ahom", "71424Abodw"),
    ("anatolianhieroglyphs", "82944 583"),
    ("arabic", "1536eafanacaFajkza108aH80V240He75aC62032 494b144Fp112ea135 3939E67fhiGf57088daAa" ++
      "baabaajadaaaafad6*acabaab10*abaabdagadadaaajaqecaeaqZb"),
    ("armenian", "1329LbXbc62851e"),
    ("avestan", "68352 54cg"),
    ("balinese", "6912 77aX"),
    ("bamum", "42656 88 49416 569"),
    ("bassavah", "92880Dbf"),
    ("batak", "7104Zhd"),
    ("bengali", "2432dahbbbvagaacdbibbbdhadbaeby"),
    ("beriaerfe", "93856yby"),
    ("bhaiksuki", "72704iaSanjC"),
    ("bopomofo", "746b11801Q112F"),
    ("brahmi", "69632 78dJia"),
    ("braille", "10240 256"),
    ("buginese", "6656Bbb"),
    ("buhid", "5952t"),
    ("canadianaboriginal", "5120 640 560 70 65978p"),
    ("carian", "66208W"),
    ("caucasianalbanian", "66864Zka"),
    ("chakma", "69888 53ar"),
    ("cham", "43520 55inbjbd"),
    ("cherokee", "5024 86bf38770 80"),
    ("chorasmian", "69552B"),
    ("common", "0 65zfzUaoaewaEa449Meebt116aiafaaa637afanacaFa156a516a129b1241a405d290a1519c71b2" ++
      "03baa1229amagdafacba773lb87akckaoqH62LacbfaAaqOcd666vku928 256 628b138 512 94 402uaaayohd" ++
      "d91bca90b147pFLiaV64E81Ua88 168 6592 64 22784H102c165j244a160a395anb20946b208jvIasad147aa" ++
      "FzfzkjaSb64gagje258cdSci80mYS228A47524d3932 253c436fwoq95 116 60 246jMb62cqhbgDd61 213tlt" ++
      "l87iy135 85a71abbabbbdalaaaga65adbhagaBadaeaacga340b292bX5233 68 76 61 706Rd100loboaoaKj1" ++
      "74 56zabmRdigbnf154 985cqcmc218fldaold56hjfNhDbldbniM344hnbmckc57aadpbldjg147a103 787462a" ++
      "D96"),
    ("coptic", "994n10384 116eg"),
    ("cuneiform", "73728 922 102 111aek196"),
    ("cypriot", "67584fbaaRabcaba"),
    ("cyprominoan", "77712 99"),
    ("cyrillic", "1024 133b169 5968k160a76a4199F30784 96 22414b57856 62Ga"),
    ("deseret", "66560 80"),
    ("devanagari", "2304 81dobz40800F29184j"),
    ("divesakuru", "71936gbabhabaDabblij"),
    ("dogra", "71680 60"),
    ("duployan", "113664 107emcigjbd"),
    ("egyptianhieroglyphs", "77824 1110j3995"),
    ("elbasan", "66816N"),
    ("elymaic", "69600w"),
    ("ethiopic", "4608 73adbgaaadbOadbGadbgaaadboa57adb67bFcz6630wigagagagagagagag32034fbfbfigag" ++
      "81073gadabao"),
    ("garay", "68928LcChb"),
    ("georgian", "4256LaaeabQad2960Qbc4160Laaea"),
    ("glagolitic", "11264 96 111520gaqbgabae"),
    ("gothic", "66352A"),
    ("grantha", "70400dahbbbvagabaebibbbcbafaegbgce"),
    ("greek", "880dacbdaadaaaacaaata63np6438eXede84a320vbfbLbfbh7*aEb53aoanbfasbcai295a35390a219" ++
      "78 79qa53343 70"),
    ("gujarati", "2689caiacavagabaebjacacbaodblgg"),
    ("gunjalagondi", "73056fabaKabafgj"),
    ("gurmukhi", "2561cafdbbvagabababbaaedbbccagdaagq"),
    ("gurungkhema", "90368 58"),
    ("han", "11904za89l214Uaaayind964 6592 64 20992 22784 366b106 29960blg36873 42720F4382b5774b" ++
      "7473o622 2466 542 1506 4939e8490"),
    ("hangul", "4352 256 7726b257 94 113E65E30433C643 11172lwdW10148Ecfbfbfbc"),
    ("hanifirohingya", "68864Nhj"),
    ("hanunoo", "5920u"),
    ("hatran", "67808sabee"),
    ("hebrew", "1425 55hAdf62760zaeaaababaj"),
    ("hiragana", "12353 86fc98145 287raCc16557a"),
    ("imperialaramaic", "67648vai"),
    ("inherited", "768 112 277b452kza736d4443Tbl484camagdafacb198 64 524b194G3897d107b52581ppn97" ++
      "5a226a4186a48068Tbw544cqhbgDd798546 240"),
    ("inscriptionalpahlavi", "68448seh"),
    ("inscriptionalparthian", "68416vbh"),
    ("javanese", "43392 78bjdb"),
    ("kaithi", "69760 67ja"),
    ("kannada", "3200macawajaebiacadgbecadbjac"),
    ("katakana", "12449 90bc240p208Ua88 52238jaS45138dagabaa287cXand"),
    ("kawi", "73472qaOcC"),
    ("kayahli", "43264Taa"),
    ("kharoshthi", "68096dabehacaCbcdjgi"),
    ("khitansmallscript", "94180a6939 470Oa"),
    ("khmer", "6016 94bjfj486F"),
    ("khojki", "70144raU"),
    ("khudawadi", "70320 59ej"),
    ("kiratrai", "93504 58"),
    ("lao", "3713baaaeaxaaawbeaaagajbd"),
    ("latin", "65zfzUaoaewaEa449Me6683LfWedema70 65 256 369amapm141bfaAaqO2775F31394 102c82to816" ++
      "Qaiad20374g1050zfz2085faPai55109Eff"),
    ("lepcha", "7168 56cocc"),
    ("limbu", "6400Ealdldacl"),
    ("lineara", "67072 311ivjh"),
    ("linearb", "65536lazasabaobnH123"),
    ("lisu", "42192V31408a"),
    ("lycian", "66176C"),
    ("lydian", "67872zea"),
    ("mahajani", "69968M"),
    ("makasar", "73440y"),
    ("malayalam", "3328macaYacafdpbz"),
    ("mandaic", "2112Bba"),
    ("manichaean", "68288Mdl"),
    ("marchen", "72816Fbvan"),
    ("masaramgondi", "72960gabaRcaabaihj"),
    ("medefaidrin", "93760 91"),
    ("meeteimayek", "43744w201Tbj"),
    ("mendekikakui", "124928 197bp"),
    ("meroiticcursive", "68000xdtbT"),
    ("meroitichieroglyphs", "67968F"),
    ("miao", "93952 75d57gq"),
    ("modi", "71168 69kj"),
    ("mongolian", "6144bbaatf89gQ64949m"),
    ("mro", "92736Eajdb"),
    ("multani", "70272gaaadaoak"),
    ("myanmar", "4096 160 39232E97F27728t"),
    ("nabataean", "67712Ehi"),
    ("nagmundari", "124112P"),
    ("nandinagari", "72096hbTbk"),
    ("newa", "70656 92ae"),
    ("newtailue", "6528Rdzfkcb"),
    ("nko", "1984 59bc"),
    ("nushu", "94177a16782 396"),
    ("nyiakengpuachuehmong", "123136Scnbjdb"),
    ("ogham", "5760C"),
    ("olchiki", "7248V"),
    ("oldhungarian", "68736YmYgf"),
    ("olditalic", "66304Jic"),
    ("oldnortharabian", "68224F"),
    ("oldpermic", "66384Q"),
    ("oldpersian", "66464Jdn"),
    ("oldsogdian", "69376N"),
    ("oldsoutharabian", "68192F"),
    ("oldturkic", "68608 73"),
    ("olduyghur", "69488z"),
    ("olonal", "124368Qda"),
    ("oriya", "2817cahbbbvagabaebibbbcgcdbaebr"),
    ("osage", "66736JdJ"),
    ("osmanya", "66688Dbj"),
    ("pahawhhmong", "92928 70jjagaues"),
    ("palmyrene", "67680F"),
    ("paucinhau", "72384 57"),
    ("phagspa", "43072 56"),
    ("phoenician", "67840Bca"),
    ("psalterpahlavi", "68480rgdlg"),
    ("rejang", "43312Jka"),
    ("runic", "5792 75ck"),
    ("samaritan", "2048Tbo"),
    ("saurashtra", "43136 70hl"),
    ("sharada", "70016 96 2432h"),
    ("shavian", "66640V"),
    ("siddham", "71040 54bL"),
    ("sidetic", "67904z"),
    ("signwriting", "120832 652oeao"),
    ("sinhala", "3457carcxaiaabgcadfaaahfjbc66540t"),
    ("sogdian", "69424P"),
    ("sorasompeng", "69840ygj"),
    ("soyombo", "72272 83"),
    ("sundanese", "7040 64 256h"),
    ("sunuwar", "72640Hnj"),
    ("sylotinagri", "43008S"),
    ("syriac", "1792na60bc272k"),
    ("tagalog", "5888via"),
    ("tagbanwa", "5984macab"),
    ("taile", "6480Dbe"),
    ("taitham", "6688 63aCbkfjfn"),
    ("taiviet", "43648 67xe"),
    ("taiyo", "124608Eavhb"),
    ("takri", "71296 58fj"),
    ("tamil", "2946bafccadcbaaabcbcccldeccadbafanu70597Xma"),
    ("tangsa", "92784 79aj"),
    ("tangut", "94176aE6912 512E97 115"),
    ("telugu", "3072macawapbiacadgbacabbdbjgi"),
    ("thaana", "1920X"),
    ("thai", "3585 58eB"),
    ("tibetan", "3840 72aJdMaJaoagdb"),
    ("tifinagh", "11568 56gbna"),
    ("tirhuta", "70784 72hj"),
    ("todhri", "67008Z"),
    ("tolongsiki", "73136Rdj"),
    ("toto", "123536E"),
    ("tulutigalari", "70528jaabaaLajaabaadajabhb"),
    ("ugaritic", "66432Daa"),
    ("vai", "42240 300"),
    ("vithkuqi", "66928kaoagabakaoagab"),
    ("wancho", "123584 58ea"),
    ("warangciti", "71840 83la"),
    ("yezidi", "69248Pacbb"),
    ("yi", "40960 1165c55"),
    ("zanabazarsquare", "72192 72")]

def scripts : List (String × CharClass) :=
  scriptCounts.map fun (name, counts) => (name, .ofText counts)

def foldedScripts : List (String × CharClass) :=
  (scripts.filter fun (name, _) => name ∈ ["common", "greek", "inherited"]).map
    fun (name, k) => (name, k.folded)

end Orchestrion.Pattern
