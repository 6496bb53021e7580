import LuaAnalysis.Regex.CharSet
import LuaAnalysis.Text.Blank

/-!
# Character classes of Unicode

Words, decimal digits, general categories, and the characters that differ only in case. The tables are written as texts
of numbers and are read when they are first used.
-/

namespace LuaAnalysis.Unicode

def number (digits : List Char) : Nat :=
  digits.foldl (fun n c => 10 * n + (c.toNat - '0'.toNat)) 0

def numbers (table : List String) : List Nat :=
  table.flatMap fun line => (Text.words line.toList).map number

/-! ## General categories -/

/-- The general categories, in the order of the letters that stand for them in the table. -/
def categories : List String :=
  ["Cc", "Cf", "Cn", "Co", "Cs", "Ll", "Lm", "Lo", "Lt", "Lu", "Mc", "Me", "Mn", "Nd", "Nl", "No", "Pc",
    "Pd", "Pe", "Pf", "Pi", "Po", "Ps", "Sc", "Sk", "Sm", "So", "Zl", "Zp", "Zs"]

/-- Runs of characters with the letter of their category, and how many they are if more than one. Two more letters stand
for pairs: `y` for a letter in upper and one in lower case, `z` for an opening and a closing bracket. -/
def categoryTable : List String :=
  ["32Ad3VX3VzVZVR2V10N2V3Z2V26JWVSYQY26FWZSZ33AdV4XaVYaHUZBaYaZ2PYF2VYPHT3PV23JZ7J24FZ8F27yJ2F",
    "7yJ2F23y2JFyJ3F2JFy2JF3J2F4JF2JF3J3F2JF2JF2y2JFJ2Fy2JF3JFy2J2FHJ3F4HJIFJIFJIF7yJ2F8yJ2FJIFy",
    "3JF28yJ7F2JF2J2Fy4JF3yJ69FH27F18G4Y12G14Y5G7YGYG17Y112M2yGYy2CG3FVJ4C2YJV3JCJC2JF17JC9J35FJ",
    "2F3J3F11yJ5FyZy2J2F51J48F17ya5M2L27y2JF5yJ2F48yC38J2CG6V41FVR2C2aXC45MRMV2MV2MVM8C27H4C4H2V",
    "11C6B3Z2VX2V2a11MVB3V32HG10H21M10N4V2HM99HVH7MBa6M2G2Ma4M2H10N3H2aH14VCBHM30H27M2C89H11MH14C",
    "10N33H9M2Ga3VG2CM2X22H4MG9MG3MG5M2C15VC25H3M2CVC11H5C24HY6HC2B6C8M41HG24MB32MK54HMKMH3K8M4KM",
    "2KH7M10H2M2V10NVG15HM2KC8H2C2H2C22HC7HCH3C4H2CMH3K4M2C2K2C2KMH8CK4C2HC3H2M2C10N2H2X6PaXHVM2C",
    "2MKC6H4C2H2C22HC7HC2HC2HC2H2CMC3K2M4C2M2C3M3CM7C4HCH7C10N2M3HMV10C2MKC9HC3HC22HC7HC2HC5H2CMH",
    "3K5MC2MKC2KM2CH15C2H2M2C10NVX7CH6MCM2KC8H2C2H2C22HC7HC2HC5H2CMHKMK4M2C2K2C2KM7C2MK4C2HC3H2M",
    "2C10NaH6P10CMHC6H3C3HC4H3C2HCHC2H3C2H3C3H3C12H4C2KM2K3C3KC3KM2CH6CK14C10N3P6aXa5CM3KM8HC3HC",
    "23HC16H2CMH3M4KC3MC4M7C2MC3H2CH2C2H2M2C10N7CV7PaHM2KV8HC3HC23HC10HC5H2CMHKM5KCM2KC2K2M7C2K6C",
    "2HC2H2M2C10NC2H13C2M2K9HC3HC41H2MH3K4MC3KC3KMHa4C3HK7P3H2M2C10N9Pa6HCM2KC18H3C24HC9HCH2C7H3C",
    "M4C3K3MCMC8K6C10N2C2KV12C48HM2H7M4CX6HG8MV10N2V37C2HCHC5HC24HCHC10HM2H9MH2C5HCGC6M2C10N2C4H",
    "32CH3a15VaV3a2M6a10N10PaMaMaM2z2K8HC36H4C14MK5MV2M5H11MC36MC8aM6aC2a5V4a2V37C43H2K4MK6MK2M2K",
    "2MH10N6V6H2K2M4H3MH3K2H7K3H4M13HM2K2M6KMHK10N3KM2a38JCJ5CJ2C43FVG3F329HC4H2C7HCHC4H2C41HC4H",
    "2C33HC4H2C7HCHC4H2C15HC57HC4H2C67H2C3M9V20P3C16H10a6C86J2C6F2CR620HaV17Hd26Hz3C75H3V3O8H7C",
    "18H3MK9C19H2MK2V9C18H2M12C13HC3HC2M12C52H2MK7M8KM2K11M3VG3VXHM2C10N6C10P6C6VR4V3MBM10N6C35HG",
    "53H7C5H2M34HMH5C70H10C31HC3M4K2M3K4C2KM6K3M4Ca3C2V10N30H2C5H11C44H4C26H6C10NP3C34a23H2M2KM2C",
    "2V53HKMK7MCMKM2K8M6K10M2CM10N6C10N6C7VG6V2C14ML16M49C4MK47HMK5MKM5KM2K8H3C10N7V10a9M9a2VC2MK",
    "30HK4M2K2MK3M2H10N44HMK2M3KMK3M2K8C4V36H8K8M2K2M3C5V10N3C3H10N30H6G2V9F7C43J2C3J8V8C3MV13MK",
    "7M4HM6HM2HK2MH5C44F63G13FG34F37G64M74yJ9F48yJ9F8J6F2C6J2C8F8J8F8J6F2C6J2C8FCJCJCJCJ8F8J14F2C",
    "8F8I8F8I8F8I5FC2F4JIYF3Y3FC2F4JI3Y4F2C2F4JC3Y8F5J3Y2C3FC2F4JI2YC11d5B6R2VUTW2UTWU8Vbc5Bd9VUT",
    "4V2Q3VZz11VZVQ10Vd5BC10BPG2C6P3ZzG10P3ZzC13G3C33X15C13M4LM3L12M15C2aJ4aJ2aF3J2F3JFaJ2aZ5J6aJ",
    "aJaJa4JaF4JF4HF2a2F2J5ZJ4FaZ2aFa16P35Oy4OP2a4C5Z5a2Z4aZ2aZ2aZ7aZ31a2Z2aZaZ31a268Z8a2z20a2Z7a",
    "z81aZ30a25Z40a6Z69a25C11a21C60P78a22P183aZ9aZ54a8Z111aZ248a7z30P44a5Zz31Z5z16Z256a131Z11z63Z",
    "2z32Zz258Z48a21Z2a6Z39a2C32aC105a48J48Fy3J2F3y4JFJ2FJ6F2G3JF48yJ2F6a2y3My5C4VP2V38FCF5CF2C",
    "56H7CGV14CM23H9C7HC7HC7HC7HC7HC7HC7HC7HC32M2VUTUT3VUTVUT9VR2VRVUT2VUT4z5VG10V2R4VRVW13V2a3V",
    "4zR34C26aC89a12C214a26C12a4Cd3VaGHO5z2a4zRW2Sa9O4M2KR5G2a3OGHV2aC86H2C2M2Y2GHR90HV3GH5C43HC",
    "94HC2a4P10a32H36a12C16H31aC10P30a8Pa15P32a10P39a15P320a6592H64a21013HG1143H3C55a9C40H6G2V",
    "268HG3V16H10N2H20C23yHM3LV10MVG14y2G2M70H10O2M6V8C23Y9G2Y6yJ3F31yG8F2y2JF4yG2Y2yHyJ3F10y5JF",
    "5JF7y4JFy5CyCFCF2y24C3GyH2GF7HM3HM4HM23H2K2MK4aM3C6P2aXa6C52H4V8C2K50H16K2M8C2V10N6C18M6H3VH",
    "V2HM10N28H8M2V23H11M2K11CV29H3C3MK47HM2K4M2K2M3K13VCG10N4C2V5HMG9H10N5HC41H6M2K2M2K2M9C3HM8H",
    "MK2C10N2C4V16HG6H3aHKMK50HMH3M2H2M5H2MHMH24C2HG2V11HK2M2K2VH2GKM10C6H2C6H2C6H9C7HC7HC43FY4G",
    "9FG2Y4C80F35H2KM2KM2KVKM2C10N6C11172H12C23H4C49H4C2048E6400D366H2C106H38C7F12C5F5CHM10HZ13HC",
    "5HCHC2HC2HC108H17Y16C363HSW16a64H2C54H7Ca32C12HX3a16M7VzV6C16MV2R2Q8z2Vz4V3Q3VC4VR3z3VZR3ZCV",
    "X2V4C5HC135H2CBC3VX3VzVZVR2V10N2V3Z2V26JWVSYQY26FWZSZzVz2V10HG45H2G31H3C6H2C6H2C6H2C3H3C2XZY",
    "a2XCa4Z2a10C3B2a2C12HC26HC19HC2HC15H2C14H34C123H5C3V4C45P3C9a53O4P17a2P3aC13a3Ca47C45aM130C",
    "29H3C49H15CM27P4C32H4P9C20HO8HO5C38H5M5C30HCV36H4C8HV5O42C40J40F78H2C10N6C36J4C36F4C40H8C52H",
    "11CV11JC15JC7JC2JC11FC15FC7FC2F67C311H9C22H10C8H24C6GC42GC9G69C6H2CHC44HC2H3CH2C23HCV8P23H2a",
    "7P31H8C9P48C19HC2H5C5P22H6P3CV26H5CV64C56H4C2P2H16P2C46PH3MC2M5C4M4HC3HC29H2C3M4CM9P7C9V7C",
    "29H2PV29H3P32C8Ha28H2M4C5P7V9C54H3C7V22H2C8P19H5C8P18H7C4V12C7P80C73H55C51J13C51F7C6P36H4M8C",
    "10N294C31PC42HC2MR2C2H78C29H10PH8C22H11M4P5V22C18H4M4V38C21H7P20C23H9CKMK53H15M7V4C20P10NM2H",
    "2MH9C3MK45H3K4M2K2M2VB4VM10CB2C25H7C10N6C3M36H5MK8MC10N4VH2KH8C35HM2VH9C2MK48H3K9M2K4H4V4MVK",
    "M10NHVH3VC20P11C18HC25H3K3M2KMK2M6VM65C7HCHC4HC15HC10HV6C47HM3K8M5C10N6C2M2KC8H2C2H2C22HC7HC",
    "2HC5HC2MH2KM4K2C2K2C3K2CH6CK5C5H2K2C7M3C5M139C53H3K8M2K3MKM4H5V10N2VCVM3H30C48H3K6MKM4K2MK2M",
    "2HVH8C10N166C47H3K4M2C4K2MK2M23V4H2M34C48H3K8M2KMK2M3VH11C10N6C13V19C43HMKM2K6MKMHV6C10N54C",
    "27H2C3M2K4MK5M4C10N2P3Va7H185C44H3K9MK2MV100C32J32F10N9P12C8H2CH2C8HC2HC24H6KC2K2C2MKMHKHKM",
    "3V9C10N70C8H2C39H3K4M2C2M4KMHVHK27CH10M40H6MKH4M8VM8CH6M2K3M46H13MK2M3VH5V13C73H263C9HC37HK",
    "7MC6MKMH5V10C10N19P3C2V30H2C22MCK7MK2MK2M73C7HC2HC38H6M3CMC2MC7MHM8C10N6C6HC2HC32H5KC2MC2KMK",
    "MH7C10N310C19H2M2K2V183CH15C21P8a4X17a13CV922H102C111OC5V11C196H2636C97H2V13C1071HC9B4039C",
    "583H8633C569H7C31HC10N4C2V79HC10N6C30H2C5MV10C48H7M5V4a4GVa10C10NC7PC21H5C19H688C32J32F23P4V",
    "101C75H4CMH55K7C4M13G64C2GVGM11C2K14C6136H8C1238H42C9H8935C4GC7GC2GC291H45C3H17C4H8C396H",
    "2308C107H5C13H3C9H7C10H2Ca2MV4B4700C46M2C23M9C116a60C246a10C39a2C60a2K3M3a6K8B8M2a7M30a4M61a",
    "21C66a3Ma154C20P12C87a9C25P135C26J26F26J7FC18F26J26FJC2J2CJ2C2J2C4JC8J4FCFC7FC11F26J26F2JC4J",
    "2C8JC7JC26F2JC4JC5JCJ3C7JC26F26J26F26J26F26J26F26J26F26J26F26J28F2C25JZ25FZ6F25JZ25FZ6F25JZ",
    "25FZ6F25JZ25FZ6F25JZ25FZ6Fy2C50N512a55M4a50M8aM14aM2a5V15C5MC15M1104C10FH20F225C7MC17M2C7MC",
    "2MC5M213C45H3C7M7G2C10N4CHa320C30HM17C44H4M10N5CX1248C7HC4HC2HC15HC197H2C9P7M41C34J34F7MG4C",
    "10N4C2V785C59Pa3PX4P76C45Pa15P194C4HC27HC2HCH2CHC10HC4HCHCH6CH4CHCHCHC3HC2HCH2CHCHCHCHCHC2HC",
    "H2C4HC7HC4HC4HCHC10HC17H5C3HC5HC17H52C2Z270C44a4C100a12C15a2C15aC15aC37a10C13P161a56C29a13C",
    "44a4C9a7C2a14C6a154C251a5Y728a5C16a3C13a3C116a12C89a7C12a4Ca15C12a4C56a8C10a6C40a8C30a2C2a",
    "78C340a12C14a2C5a3C5a3C7a9C29a3C11a5C6a10C10a6C8a8C7a9C147aC55a37C10N1030C42720H32C4153H7C",
    "222H2C5762H14C7473H3103C542H1506C4939H715958CB30C96B128C240M65040C65534D2C65534D2C"]

def categoryOf (letter : Char) : String :=
  categories.getD (if letter ≤ 'Z' then letter.toNat - 'A'.toNat else letter.toNat - 'a'.toNat + 26) ""

def runsFrom (count : Nat) : List Char → List (Nat × String)
  | [] => []
  | c :: rest =>
    if c.isDigit then runsFrom (10 * count + (c.toNat - '0'.toNat)) rest
    else (match c with
      | 'y' => (List.replicate (max count 1) [(1, "Lu"), (1, "Ll")]).flatten
      | 'z' => (List.replicate (max count 1) [(1, "Ps"), (1, "Pe")]).flatten
      | _ => [(max count 1, categoryOf c)]) ++ runsFrom 0 rest

def categoryRuns : List (Nat × String) :=
  categoryTable.flatMap fun line => runsFrom 0 line.toList

def rangesWhere (p : String → Bool) (start : Nat) : List (Nat × String) → List (Nat × Nat)
  | [] => []
  | (count, category) :: rest =>
    let others := rangesWhere p (start + count) rest
    if p category then (start, start + count - 1) :: others else others

/-- The characters whose category starts with one of the codes. -/
def ofCategories (codes : List String) : CharSet :=
  .ofRanges (rangesWhere (fun k => codes.any fun c => c.toList.isPrefixOf k.toList) 0 categoryRuns)

/-! ## Words and digits -/

/-- Letters, marks, numbers that are letters, decimal digits and connecting punctuation, and what joins letters or is made
of them. -/
def wordChars : CharSet :=
  (ofCategories ["L", "M", "Nl", "Nd", "Pc"]).union (.ofRanges [(0x200C, 0x200D), (0x24B6, 0x24E9), (0x1F130, 0x1F149),
    (0x1F150, 0x1F169), (0x1F170, 0x1F189)])

def digitChars : CharSet :=
  ofCategories ["Nd"]

def blankChars : CharSet :=
  .ofRanges [(9, 13), (0x20, 0x20), (0x85, 0x85), (0xA0, 0xA0), (0x1680, 0x1680), (0x2000, 0x200A), (0x2028, 0x2029),
    (0x202F, 0x202F), (0x205F, 0x205F), (0x3000, 0x3000)]

/-! ## Case -/

/-- Pairs of characters that differ only in case, as runs: how far the first is from the first of the run before, how many
they are, their distance, and the distance to the other character. -/
def casePairs (start : Nat) : List Nat → List (List Nat)
  | offset :: count :: stride :: apart :: rest =>
    let first := start + offset
    (List.range count).map (fun i => [first + i * stride, first + i * stride + apart]) ++ casePairs first rest
  | _ => []

/-- The characters that differ only in case from each other. -/
def caseClasses : List (List Nat) :=
  casePairs 0 (numbers
    ["65 10 1 32 11 8 2 32 1 3 2 32 8 3 2 32 107 16 2 32 1 2 2 32 6 8 2 32 18 3 2 32 6 1 1 7615 32",
    "1 1 121 1 24 2 1 50 3 2 1 7 8 2 1 17 23 2 1 47 3 2 1 7 1 1 195 1 1 1 210 1 2 2 1 4 1 1 206 1",
    "1 1 1 2 2 1 205 2 1 1 1 3 1 1 79 1 1 1 202 1 1 1 203 1 1 1 1 2 1 1 205 1 1 1 207 1 1 1 97 1",
    "1 1 211 1 1 1 209 1 1 1 1 2 1 1 163 2 1 1 211 1 1 1 213 1 1 1 130 1 1 1 214 1 3 2 1 6 1 1",
    "218 1 1 1 1 2 1 1 218 3 1 1 1 2 1 1 218 1 1 1 1 2 2 1 217 2 2 2 1 4 1 1 219 1 1 1 1 4 1 1 1",
    "3 1 1 56 14 8 2 1 17 9 2 1 22 1 1 1 4 20 2 1 42 9 2 1 24 1 1 10795 1 1 1 1 3 1 1 10792 1 2 1",
    "10815 2 1 1 1 3 1 1 69 1 1 1 71 1 5 2 1 10 1 1 10783 1 1 1 10780 1 1 1 10782 10 1 1 42319 5",
    "1 1 42315 4 1 1 42280 1 1 1 42308 4 1 1 42308 1 1 1 10743 1 1 1 42305 5 1 1 10749 12 1 1",
    "10727 5 1 1 42307 5 1 1 42282 22 1 1 42261 1 1 1 42258 210 2 2 1 6 1 1 1 5 3 1 130 4 1 1 116",
    "7 1 1 38 2 3 1 37 4 1 1 64 2 2 1 63 3 2 2 32 3 2 2 32 3 1 1 32 4 3 2 32 3 1 1 32 6 2 1 32 3",
    "2 1 32 3 2 1 32 37 1 1 8 9 12 2 1 26 1 1 7 5 1 1 1 3 1 1 1 6 16 1 80 16 2 1 32 3 7 2 32 3 4",
    "2 32 10 1 1 32 3 7 1 32 8 5 1 32 53 1 1 1 4 15 2 1 38 27 2 1 54 1 1 15 1 7 2 1 15 48 2 1 97",
    "38 1 48 2927 38 1 7264 39 1 1 7264 6 1 1 7264 3 43 1 3008 45 3 1 3008 675 80 1 38864 80 6 1",
    "8 2441 1 1 35332 4 1 1 3814 17 1 1 35384 114 48 2 1 98 26 2 1 62 48 2 1 96 8 1 8 16 6 1 8 16",
    "8 1 8 16 8 1 8 16 6 1 8 17 4 2 8 15 8 1 8 16 2 1 74 2 4 1 86 4 2 1 100 2 2 1 128 2 2 1 112 2",
    "2 1 126 4 8 1 8 16 8 1 8 16 8 1 8 16 2 1 8 3 1 1 9 16 1 1 9 13 2 1 8 16 2 1 8 5 1 1 7 14 1 1",
    "9 319 1 1 28 46 16 1 16 35 1 1 1 819 26 1 26 1866 48 1 48 96 1 1 1 7 3 2 1 11 1 1 1 3 1 1 1",
    "11 50 2 1 107 2 2 1 7 1 1 1 31054 5 2 1 12 17 2 1 52 14 2 1 162 7 2 1 16 31 2 1 71 2 2 1 5 5",
    "2 1 13 1 1 1 5 2 2 1 4 1 1 48 2 10 2 1 29 1 1 928 1 8 2 1 19 2 2 1 9 1 1 1 6 2 2 1 31 1 1 1",
    "22316 26 1 32 1247 40 1 40 176 36 1 40 192 19 2 39 1 5 2 39 12 7 2 39 16 3 2 39 8 1 1 39",
    "1771 51 1 64 3104 32 1 32 21920 32 1 32 31424 34 1 34"])
  ++ [[75, 107, 8490], [83, 115, 383], [181, 924, 956], [197, 229, 8491], [452, 453, 454], [455, 456, 457],
    [458, 459, 460], [497, 498, 499], [837, 921, 953, 8126], [914, 946, 976], [917, 949, 1013], [920, 952,
    977, 1012], [922, 954, 1008], [928, 960, 982], [929, 961, 1009], [931, 962, 963], [934, 966, 981], [937,
    969, 8486], [1042, 1074, 7296], [1044, 1076, 7297], [1054, 1086, 7298], [1057, 1089, 7299], [1058, 1090,
    7300, 7301], [1066, 1098, 7302], [1122, 1123, 7303], [7304, 42570, 42571], [7776, 7777, 7835]]

def ignoringCase (s : CharSet) : CharSet :=
  let has (n : Nat) := s.ranges.any fun (lo, hi) => lo ≤ n && n ≤ hi
  .ofRanges (s.ranges ++ (caseClasses.filter (·.any has)).flatten.map fun n => (n, n))

/-! ## Names of classes -/

/-- The long names of categories and groups of them, without spaces and in lower case, with their codes. -/
def categoryNames : List (String × List String) :=
  [("other", ["C"]), ("control", ["Cc"]), ("format", ["Cf"]), ("unassigned", ["Cn"]), ("privateuse", ["Co"]),
    ("surrogate", ["Cs"]), ("letter", ["L"]), ("casedletter", ["Lu", "Ll", "Lt"]), ("lc", ["Lu", "Ll", "Lt"]),
    ("lowercaseletter", ["Ll"]), ("modifierletter", ["Lm"]), ("otherletter", ["Lo"]), ("titlecaseletter", ["Lt"]),
    ("uppercaseletter", ["Lu"]), ("mark", ["M"]), ("combiningmark", ["M"]), ("spacingmark", ["Mc"]),
    ("enclosingmark", ["Me"]), ("nonspacingmark", ["Mn"]), ("number", ["N"]), ("decimalnumber", ["Nd"]),
    ("digit", ["Nd"]), ("letternumber", ["Nl"]), ("othernumber", ["No"]), ("punctuation", ["P"]), ("punct", ["P"]),
    ("connectorpunctuation", ["Pc"]), ("dashpunctuation", ["Pd"]), ("closepunctuation", ["Pe"]),
    ("finalpunctuation", ["Pf"]), ("initialpunctuation", ["Pi"]), ("otherpunctuation", ["Po"]),
    ("openpunctuation", ["Ps"]), ("symbol", ["S"]), ("currencysymbol", ["Sc"]), ("modifiersymbol", ["Sk"]),
    ("mathsymbol", ["Sm"]), ("othersymbol", ["So"]), ("separator", ["Z"]), ("lineseparator", ["Zl"]),
    ("paragraphseparator", ["Zp"]), ("spaceseparator", ["Zs"])]

def categoryCodes : List String :=
  ["C", "L", "M", "N", "P", "S", "Z"] ++ categories

/-- A name in lower case, without spaces, hyphens and underscores, and without a leading `is`. -/
def looseName (name : List Char) : String :=
  let cs := (name.filter fun c => !(Text.isBlank c || c == '_' || c == '-')).map Char.toLower
  match cs with
  | 'i' :: 's' :: rest => String.ofList rest
  | _ => String.ofList cs

def classNamed? (name : String) : Option CharSet :=
  match name with
  | "any" => some .all
  | "ascii" => some (.range 0 0x7F)
  | "assigned" => some (ofCategories ["Cn"]).compl
  | "whitespace" | "space" | "wspace" => some blankChars
  | _ =>
    match categoryCodes.find? fun c => c.map Char.toLower == name with
    | some code => some (ofCategories [code])
    | none => (categoryNames.find? (·.1 == name)).map fun (_, codes) => ofCategories codes

end LuaAnalysis.Unicode
