import Orchestrion.Pattern.LetterCase

/-!
# General categories

The general categories of Unicode by their short names.
-/

namespace Orchestrion.Pattern

def categoryCounts : List (String × String) :=
  [("cc", "0F95G"),
    ("cf", "173a1362fva192aWa384b80a3883a2044ezeWeaj56975a249c4289aoa9058p34912d5327h798342aD96"),
    ("co", "57344 6400 919296 65534b65534"),
    ("cs", "55296 2048"),
    ("ll", "97z58aOxah55*ab15*ab46*abaaaacbaaabacbdabaccbab5*abaabaabacaaabbbcfabab16*ab17*abbaa" ++
      "ac58*agbabbaad8*a69bz193aaacaccraAIabcc23*aeaababbYV34*ai53*ab12*ab96*aVO2887Qbc760f2178i" ++
      "aa117R63maH102 148*ai97*aihfjhhhhfjhhhhnb6*heabfaccabhdbbhhjcab274acbcaAadadabbhdda53a273" ++
      "1Vaacb6*adaabafe98*abgaaadalLaaea30995 45*as27*a135 12*ac63*ahaaaab9*adaaabaac20*aeae15*a" ++
      "daaab15*azaca821Qeig80 20288gle1065z1229N136J155kaoagab1795Y125v2874F21888F59y25926zzgarz" ++
      "zzdaaagak17*zBByafzyafzyafzyafzyafaa1844jatff2551H"),
    ("lm", "688rdlnegaaa133aea478a230a164b269bdaEaiaca160a167a1236a127a565a1754a107a611a464f174 " ++
      "63maHK689amapm3039b241a191a469aQeea97b93c28438a1250f270a114aBb121i80awa104dcb469ava137a10" ++
      "8aub103dia21510aSb2016faPai1427aFa341a3859a19814d508cNb550m64baanb16380dagab12337 62 201g" ++
      "941a531a587a"),
    ("lo", "170aoa256add208b826AddSFajIba99aaxbjcbapaaDC89kaxGuvPygkexagpO59 54caragjpodhbbbvaga" ++
      "acdcapambacnbjahfdbbvagabababEdaascpiacavagabaecaraobwakhbbbvagabaecaDbacoaqaafccadcbaaab" ++
      "cbccclvaZhacawapcazcabbbDadhacawajaecaDcabobqiacaObapaechcxfercxaiaabg58Vablf59baaaeaxaaa" ++
      "jabiabewdFa63haJAe115Qtapfddcacbgcdmla113 329adbgaaadbOadbGadbgaaadboa57adb67Kp113 620bqa" ++
      "ze75fhgrmsnrnmacoZNa67Ia53gebHaae70jEWDbekRdz54wi53 176Uqh54DmbjRzJOcjD113dafabca1082d306" ++
      "3 56xwigagagagagagagag551a53ad86haa90daeQa94qFVp512 6592 64 21013a1143 67Nh268dpjb66aW70 " ++
      "169a103acgacadawCZnX62fcaabkBjwyCgUSebijeaOwcahtpafcacXaacbbebaaaxbckganfbfbfigag145IC111" ++
      "72lwdW8452 366b106 67aajamaeaaababa108G363r64b54Nl116ea135 105jaSbEcfbfbfbcIlazasabaobnH1" ++
      "23 389CcWUFmtahfLjDbJdh128 78 98NhZ92Zl311ivjh152fbaaRabcabwjwiE65sabjvjzfzL56fb64aodacaC" ++
      "PCcCIhaBA54jvjsmr110 73 183JLdaa304Pfbpcab56CjahvPrTuAwl53 57bbamSFyzJCabahIcalVnduaaaIra" ++
      "ysb63gaaadaoajgULhbbbvagabaecaraleDjaabaaLaayaaaR53rdtcDVtbaa184UOdJVta59Qma71AKg185R211h" ++
      "babhabaxoaaa94hbMpaaaBajNgauakTsar73 199GEiaKqaWD112gabaLuayfabaFnawOab260soaamaH124a79 9" ++
      "22 230 196 2636 97o1072qfy3995e583 6841D1762 569gEq79qDrVYues435N405 75ea175 7382OF97 115" ++
      " 8717 291oaCcbandh396 2308 107emcigj8816a501SGa321DrR484A229Dba207Eacabagbeia225gadabaoa1" ++
      "97 1339daAabaabaajadaaaafad6*acabaab10*abaabdagadadaaajaqecaeaq4420 42720F4382b5774b7473o" ++
      "622 2466 542 1506 4939e8490"),
    ("lt", "453ababaLa7573 5*hlaoaUa"),
    ("lu", "65z101wagG55*ab15*ab46*abaaaacbaaabacbdabaccbab5*abaabaabacaaabcagababab15*ab17*abab" ++
      "aac58*agbabbaad8*a289aaacahafaacaaabaqaiIabcc23*aeabaabbYV33*ai54*ab12*ab95*abL2889Laaea7" ++
      "22 86 2195afQbc320 149*ai97*aihhfjhhhhfk7*ahh72dldldlekd262adaccbcbacef6*adbdjbea61a2684V" ++
      "Vaacb6*adaabahc98*ahaaada31053 45*as27*a135 13*ac61*ajaaaab8*adaaabaaac20*aeae15*adaaab16" ++
      "*axa22315z1221N136J156kaoagab1770Y157v2874F21888F64y25927 6*zaabbabbbdahzzzbadbhagAbadaea" ++
      "acgA11*zDyGyGyGyGyGa4405H"),
    ("mc", "2307a55abchdabXb58cfbbbjaQa58c66a58chaab53b58aaafbbbja102babccacjaOc61d61b58aaebbabi" ++
      "bBanb58cecacjaPb75cfhrb330b63a171bdafabbybjcbgubbfbajc1656aDa129aghab346dbcdbaf224b58aaai" ++
      "aabhf145aVaeaaeab61aDadbba60abcaacbVhhb171aua4918b30707bba88bXp142bUaVbdbbc110bbbxaSaaa10" ++
      "9abbea237bababaa25619aaa127aScdb115axb59aVcibma93ccbaa170cEb58badbbbciajb84cgabaadabaa101" ++
      "chbca106cfaadba237cfdba113chbaa109aabfa103aabda261cia247fabdabaaa142chdda84aCb62a201acaaa" ++
      "199ana106agaba213edbaa350blaVbhbaa16872c3620 55 104b24947bff"),
    ("me", "1160b5684a1566dac34187c"),
    ("mn", "768 112 275e265Saaababaa72kVupa101gbfbbadIaDA91k58iiaxdaiacaeQc59iPxaF55aaadhdacgjbC" ++
      "a58addhatbzabb57adbdbbccaDbcakb57adeabdatbvfaa58abaadhagbkbDa61alaXaca55aacecadgbkbCa58ab" ++
      "afaebtbBb57bddhatbCa72agcaa90abglh98abikg73bA5*a55naeabekaJia102dafabbbybdcpdmabbfaoa703c" ++
      "946cCbDbDb64baghabkiaScaa117bHa118cdbiafc219bba58aagaaaabhfjbaVnaEbltdVaaeaaeaNilbFdbbac5" ++
      "6aabcaac58hbb152camagdafacb198 64 720mdacl3070c141a96F554d107b30164adjFb80b272acadaybea15" ++
      "1bzrmaLhykTcVabdbbMa67fbbbblahaUaYaacbbebaaPbha238abada20272a737ppp973a226a149e1670cabedN" ++
      "cda165b573d65e317b77f70kWd123a54oOabbjcWdbbga61cJeah62albZijdba95cbaabfaba157achub57bcaKg" ++
      "ce70fm5*anb85hbcaawa84faadbab238dfbabAb85hbaab106aaabfaa101aaabdae259iab256baada144dbbdaF" ++
      "jNfbdhaifbcTmab198aacaa201gafaa82vbgabab122fcaabagaa72bcaaa347bkbZeeaaawa5349afo11464lcc2" ++
      "496e59g1048a63d81a19640b4705Tbw544cqhbgDd148c1979 55dXhanaveao1360gaqbgabae100a160g375a61" ++
      "d508d254b243abagbea474g109g792501 240"),
    ("nd", "Vj1574j134j198j412j118j118j118j118j118j118j118j118j118j96j118j70j278j70j1862jLj300j1" ++
      "28j166jfj182j86j134jfj35270j678jLj198jvj86j406j21270j1414j2182jfj796j128j60j144j278j342j1" ++
      "18j374j102jft76j422j102j662j86j246j70j54j358j16854j2342j86j134j534j24438j2772X2368j422j50" ++
      "2j247j853j4758j"),
    ("nl", "5870c2671Ibd3710ayinc30379j23120 53 460aha134e8234 111 19333c"),
    ("no", "178beabc2357f376f120c133g217gqi433j1077t1139j480a1685acffj198pOa726 60 78v630D1385a1" ++
      "172d138jDhaoFjMo30064f22737S65dqb341AJd1332hygMi75evf160bbpbT64iZbDc75e104hxhOg330f352E15" ++
      "8jPd112g134t379t1349b430i871s851u19334g798w25641tlt108y5454i929 59acad76Sao962m"),
    ("pc", "95a8159bsa56798bxc239a"),
    ("pd", "Sa1372aYa3649a1029a2057f3585abaEbdaBa446asa111a52624bKaja169a3680a318a"),
    ("pe", "OaYaEa3773aaa1886a2473a55aoa634aaaDa1086 13*a80aF9*a404 21*a64aaaGa1061 7*aR7*a428 9" ++
      "*ac7*abb52510a217aC15*acaq5*a170aYaEababa"),
    ("pf", "187a8029acaBa3528aaadabaoaca"),
    ("pi", "171a8044abbbaya3528aaadabaoaca"),
    ("po", "GcacbaaaabjbcbAa68aeanbga702aha466fOa54ababaRbtbabmaac74d102aQn233c54oEa261bja140a12" ++
      "0a121a390ala367a90ajb168oaa112a74edb111f171a612i773a124c71b157cacKfad313b216b128gaf160bjg" ++
      "Bc124d59e62b64hka834bhhhibdbcckaaaj3226dab112a143bdcbabiabaabbjeajbdaaambc428c57a189a2969" ++
      "8b269c99aja115f380d86bNcaaWbUa97mpb124d126bpb249a21028gbavatbbdccadgcfaab149cacbaaaabjbcb" ++
      "AaJabb410c668aVa414a743a199aEa272iLa112g66g89d819a132eRd189g109bad126dVb79ddamaac88f107a2" ++
      "98bab114ejbaa104a250w105cBm76a130c252a264c155a92h83cae93j215a95ePb645b74m175a1136e2940b14" ++
      "971b133a65eha552c295d327a19644a7655e2931a862b"),
    ("ps", "NaXaEa3774aaa1886a2430acaLa55aoa634aaaDa1086 13*a80aF9*a404 21*a64aaaGa1061 7*ayar7*" ++
      "a428 9*ac7*aba52513a215aC15*acaq5*a170aXaEacaba"),
    ("sc", "Ja125d1257a123a498b498bga245a263a581a2459a2244H34678a21955a108a154a219bcb8182d49950a" ++
      "2480a"),
    ("sk", "94aaa71afadaca521dlnegaaaq117anb1282a5940aackcmcmcmb4252b30307wib103b976anb20550q891" ++
      "aaa162a62487e"),
    ("sm", "Qapc61aaaSadaKaEa766a527c6715amaMcmc139aMefa68eebdababagaEbbaaaE268Fb90aDyNf469aia54" ++
      "h111a336ebEjp256 131v63dFb258Vubf53212a824aac164apc61aaa131afd3489b49504a2000ayaEayaEayaE" ++
      "ayaEaya5932b2526i"),
    ("so", "166abadaaa977a266b127b206ajasb247a515a373a130faa132a207aOa391coaacbft5*a133hafabed19" ++
      "7b752j723a722a157H353jii1411badabjaabff6*adakbnaabaa58biebdababagaEbbaaaE268hdtbgb81aDyNf" ++
      "72vk81 78v183aia54h111a248RR64 256 512VubfMb138 229f357bTza89l214zpdamblaubfb336bdjFLiapE" ++
      "kDhaoFjMo320 6592 64 22160 55 865djbaa573c20809p365p64b54hSc484acadbmb313i57qbcamcaUS1658" ++
      "b591a1032h2150a2197hdq19274dea20822a3939 240jcc436fwop96 116 60 246jMb60ecvbgDd61u66ca186" ++
      " 87 1193 512 55dXhanab1736a2908a129a721Rd100loboaoaKw161 56CmRdigbnf154 251e729cqcmc218fl" ++
      "daold56hjfNhDbldb62 344hnbmckc57aadpbldjg147a92ja"),
    ("zl", "8232a"),
    ("zp", "8233a"),
    ("zs", "Fa127a5599a2431kJaUa4000a")]

def assignedCategories : List (String × CharClass) :=
  categoryCounts.map fun (name, counts) => (name, .ofText counts)

def unionOfCategories (names : List String) : CharClass :=
  names.foldl (fun k name => k.union ((assignedCategories.lookup name).getD [])) []

def unassigned : CharClass :=
  (unionOfCategories (assignedCategories.map Prod.fst)).complement

def jointCategories : List (String × CharClass) :=
  [("c", (unionOfCategories ["cc", "cf", "co", "cs"]).union unassigned),
    ("l", unionOfCategories ["ll", "lm", "lo", "lt", "lu"]),
    ("lc", unionOfCategories ["ll", "lt", "lu"]),
    ("m", unionOfCategories ["mc", "me", "mn"]), ("n", unionOfCategories ["nd", "nl", "no"]),
    ("p", unionOfCategories ["pc", "pd", "pe", "pf", "pi", "po", "ps"]),
    ("s", unionOfCategories ["sc", "sk", "sm", "so"]), ("z", unionOfCategories ["zl", "zp", "zs"])]

def categories : List (String × CharClass) :=
  ("cn", unassigned) :: jointCategories ++ assignedCategories

def foldedCategories : List (String × CharClass) :=
  (categories.filter fun (name, _) => name ∈ ["l", "lc", "ll", "lt", "lu", "m", "mn"]).map
    fun (name, k) => (name, k.folded)

def categoryAliases : List (String × String) :=
  [("other", "c"), ("control", "cc"), ("cntrl", "cc"), ("format", "cf"), ("unassigned", "cn"),
    ("privateuse", "co"), ("surrogate", "cs"), ("letter", "l"), ("casedletter", "lc"),
    ("lowercaseletter", "ll"), ("modifierletter", "lm"), ("otherletter", "lo"),
    ("titlecaseletter", "lt"), ("uppercaseletter", "lu"), ("mark", "m"), ("combiningmark", "m"),
    ("spacingmark", "mc"), ("enclosingmark", "me"), ("nonspacingmark", "mn"), ("number", "n"),
    ("decimalnumber", "nd"), ("digit", "nd"), ("letternumber", "nl"), ("othernumber", "no"),
    ("punctuation", "p"), ("punct", "p"), ("connectorpunctuation", "pc"),
    ("dashpunctuation", "pd"), ("closepunctuation", "pe"), ("finalpunctuation", "pf"),
    ("initialpunctuation", "pi"), ("otherpunctuation", "po"), ("openpunctuation", "ps"),
    ("symbol", "s"), ("currencysymbol", "sc"), ("modifiersymbol", "sk"), ("mathsymbol", "sm"),
    ("othersymbol", "so"), ("separator", "z"), ("lineseparator", "zl"),
    ("paragraphseparator", "zp"), ("spaceseparator", "zs")]

end Orchestrion.Pattern
