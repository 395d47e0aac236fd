/-!
# Named character references

The names that may follow `&` in markup, in the order of their code points, each with the text
it stands for.  The names of the older standards may lack the closing semicolon.
-/

namespace TemplateSyntax

/-- A name, the text it decodes to, and whether the semicolon may be missing. -/
structure NamedReference where
  name : String
  value : String
  legacy : Bool
  deriving DecidableEq, Repr, Inhabited

namespace NamedReference

/-- The names from `AElig` to `Esim`. -/
def fromAElig : List NamedReference := [
  ⟨"AElig", "\xc6", true⟩, ⟨"AMP", "&", true⟩, ⟨"Aacute", "\xc1", true⟩,
  ⟨"Abreve", "\u0102", false⟩, ⟨"Acirc", "\xc2", true⟩, ⟨"Acy", "\u0410", false⟩,
  ⟨"Afr", "𝔄", false⟩, ⟨"Agrave", "\xc0", true⟩, ⟨"Alpha", "\u0391", false⟩,
  ⟨"Amacr", "\u0100", false⟩, ⟨"And", "\u2a53", false⟩, ⟨"Aogon", "\u0104", false⟩,
  ⟨"Aopf", "𝔸", false⟩, ⟨"ApplyFunction", "\u2061", false⟩, ⟨"Aring", "\xc5", true⟩,
  ⟨"Ascr", "𝒜", false⟩, ⟨"Assign", "\u2254", false⟩, ⟨"Atilde", "\xc3", true⟩,
  ⟨"Auml", "\xc4", true⟩, ⟨"Backslash", "\u2216", false⟩, ⟨"Barv", "\u2ae7", false⟩,
  ⟨"Barwed", "\u2306", false⟩, ⟨"Bcy", "\u0411", false⟩, ⟨"Because", "\u2235", false⟩,
  ⟨"Bernoullis", "\u212c", false⟩, ⟨"Beta", "\u0392", false⟩, ⟨"Bfr", "𝔅", false⟩,
  ⟨"Bopf", "𝔹", false⟩, ⟨"Breve", "\u02d8", false⟩, ⟨"Bscr", "\u212c", false⟩,
  ⟨"Bumpeq", "\u224e", false⟩, ⟨"CHcy", "\u0427", false⟩, ⟨"COPY", "\xa9", true⟩,
  ⟨"Cacute", "\u0106", false⟩, ⟨"Cap", "\u22d2", false⟩,
  ⟨"CapitalDifferentialD", "\u2145", false⟩, ⟨"Cayleys", "\u212d", false⟩,
  ⟨"Ccaron", "\u010c", false⟩, ⟨"Ccedil", "\xc7", true⟩, ⟨"Ccirc", "\u0108", false⟩,
  ⟨"Cconint", "\u2230", false⟩, ⟨"Cdot", "\u010a", false⟩, ⟨"Cedilla", "\xb8", false⟩,
  ⟨"CenterDot", "\xb7", false⟩, ⟨"Cfr", "\u212d", false⟩, ⟨"Chi", "\u03a7", false⟩,
  ⟨"CircleDot", "\u2299", false⟩, ⟨"CircleMinus", "\u2296", false⟩,
  ⟨"CirclePlus", "\u2295", false⟩, ⟨"CircleTimes", "\u2297", false⟩,
  ⟨"ClockwiseContourIntegral", "\u2232", false⟩, ⟨"CloseCurlyDoubleQuote", "\u201d", false⟩,
  ⟨"CloseCurlyQuote", "\u2019", false⟩, ⟨"Colon", "\u2237", false⟩, ⟨"Colone", "\u2a74", false⟩,
  ⟨"Congruent", "\u2261", false⟩, ⟨"Conint", "\u222f", false⟩,
  ⟨"ContourIntegral", "\u222e", false⟩, ⟨"Copf", "\u2102", false⟩,
  ⟨"Coproduct", "\u2210", false⟩, ⟨"CounterClockwiseContourIntegral", "\u2233", false⟩,
  ⟨"Cross", "\u2a2f", false⟩, ⟨"Cscr", "𝒞", false⟩, ⟨"Cup", "\u22d3", false⟩,
  ⟨"CupCap", "\u224d", false⟩, ⟨"DD", "\u2145", false⟩, ⟨"DDotrahd", "\u2911", false⟩,
  ⟨"DJcy", "\u0402", false⟩, ⟨"DScy", "\u0405", false⟩, ⟨"DZcy", "\u040f", false⟩,
  ⟨"Dagger", "\u2021", false⟩, ⟨"Darr", "\u21a1", false⟩, ⟨"Dashv", "\u2ae4", false⟩,
  ⟨"Dcaron", "\u010e", false⟩, ⟨"Dcy", "\u0414", false⟩, ⟨"Del", "\u2207", false⟩,
  ⟨"Delta", "\u0394", false⟩, ⟨"Dfr", "𝔇", false⟩, ⟨"DiacriticalAcute", "\xb4", false⟩,
  ⟨"DiacriticalDot", "\u02d9", false⟩, ⟨"DiacriticalDoubleAcute", "\u02dd", false⟩,
  ⟨"DiacriticalGrave", "\x60", false⟩, ⟨"DiacriticalTilde", "\u02dc", false⟩,
  ⟨"Diamond", "\u22c4", false⟩, ⟨"DifferentialD", "\u2146", false⟩, ⟨"Dopf", "𝔻", false⟩,
  ⟨"Dot", "\xa8", false⟩, ⟨"DotDot", "\u20dc", false⟩, ⟨"DotEqual", "\u2250", false⟩,
  ⟨"DoubleContourIntegral", "\u222f", false⟩, ⟨"DoubleDot", "\xa8", false⟩,
  ⟨"DoubleDownArrow", "\u21d3", false⟩, ⟨"DoubleLeftArrow", "\u21d0", false⟩,
  ⟨"DoubleLeftRightArrow", "\u21d4", false⟩, ⟨"DoubleLeftTee", "\u2ae4", false⟩,
  ⟨"DoubleLongLeftArrow", "\u27f8", false⟩, ⟨"DoubleLongLeftRightArrow", "\u27fa", false⟩,
  ⟨"DoubleLongRightArrow", "\u27f9", false⟩, ⟨"DoubleRightArrow", "\u21d2", false⟩,
  ⟨"DoubleRightTee", "\u22a8", false⟩, ⟨"DoubleUpArrow", "\u21d1", false⟩,
  ⟨"DoubleUpDownArrow", "\u21d5", false⟩, ⟨"DoubleVerticalBar", "\u2225", false⟩,
  ⟨"DownArrow", "\u2193", false⟩, ⟨"DownArrowBar", "\u2913", false⟩,
  ⟨"DownArrowUpArrow", "\u21f5", false⟩, ⟨"DownBreve", "\u0311", false⟩,
  ⟨"DownLeftRightVector", "\u2950", false⟩, ⟨"DownLeftTeeVector", "\u295e", false⟩,
  ⟨"DownLeftVector", "\u21bd", false⟩, ⟨"DownLeftVectorBar", "\u2956", false⟩,
  ⟨"DownRightTeeVector", "\u295f", false⟩, ⟨"DownRightVector", "\u21c1", false⟩,
  ⟨"DownRightVectorBar", "\u2957", false⟩, ⟨"DownTee", "\u22a4", false⟩,
  ⟨"DownTeeArrow", "\u21a7", false⟩, ⟨"Downarrow", "\u21d3", false⟩, ⟨"Dscr", "𝒟", false⟩,
  ⟨"Dstrok", "\u0110", false⟩, ⟨"ENG", "\u014a", false⟩, ⟨"ETH", "\xd0", true⟩,
  ⟨"Eacute", "\xc9", true⟩, ⟨"Ecaron", "\u011a", false⟩, ⟨"Ecirc", "\xca", true⟩,
  ⟨"Ecy", "\u042d", false⟩, ⟨"Edot", "\u0116", false⟩, ⟨"Efr", "𝔈", false⟩,
  ⟨"Egrave", "\xc8", true⟩, ⟨"Element", "\u2208", false⟩, ⟨"Emacr", "\u0112", false⟩,
  ⟨"EmptySmallSquare", "\u25fb", false⟩, ⟨"EmptyVerySmallSquare", "\u25ab", false⟩,
  ⟨"Eogon", "\u0118", false⟩, ⟨"Eopf", "𝔼", false⟩, ⟨"Epsilon", "\u0395", false⟩,
  ⟨"Equal", "\u2a75", false⟩, ⟨"EqualTilde", "\u2242", false⟩, ⟨"Equilibrium", "\u21cc", false⟩,
  ⟨"Escr", "\u2130", false⟩, ⟨"Esim", "\u2a73", false⟩]

/-- The names from `Eta` to `LowerRightArrow`. -/
def fromEta : List NamedReference := [
  ⟨"Eta", "\u0397", false⟩, ⟨"Euml", "\xcb", true⟩, ⟨"Exists", "\u2203", false⟩,
  ⟨"ExponentialE", "\u2147", false⟩, ⟨"Fcy", "\u0424", false⟩, ⟨"Ffr", "𝔉", false⟩,
  ⟨"FilledSmallSquare", "\u25fc", false⟩, ⟨"FilledVerySmallSquare", "\u25aa", false⟩,
  ⟨"Fopf", "𝔽", false⟩, ⟨"ForAll", "\u2200", false⟩, ⟨"Fouriertrf", "\u2131", false⟩,
  ⟨"Fscr", "\u2131", false⟩, ⟨"GJcy", "\u0403", false⟩, ⟨"GT", ">", true⟩,
  ⟨"Gamma", "\u0393", false⟩, ⟨"Gammad", "\u03dc", false⟩, ⟨"Gbreve", "\u011e", false⟩,
  ⟨"Gcedil", "\u0122", false⟩, ⟨"Gcirc", "\u011c", false⟩, ⟨"Gcy", "\u0413", false⟩,
  ⟨"Gdot", "\u0120", false⟩, ⟨"Gfr", "𝔊", false⟩, ⟨"Gg", "\u22d9", false⟩, ⟨"Gopf", "𝔾", false⟩,
  ⟨"GreaterEqual", "\u2265", false⟩, ⟨"GreaterEqualLess", "\u22db", false⟩,
  ⟨"GreaterFullEqual", "\u2267", false⟩, ⟨"GreaterGreater", "\u2aa2", false⟩,
  ⟨"GreaterLess", "\u2277", false⟩, ⟨"GreaterSlantEqual", "\u2a7e", false⟩,
  ⟨"GreaterTilde", "\u2273", false⟩, ⟨"Gscr", "𝒢", false⟩, ⟨"Gt", "\u226b", false⟩,
  ⟨"HARDcy", "\u042a", false⟩, ⟨"Hacek", "\u02c7", false⟩, ⟨"Hat", "^", false⟩,
  ⟨"Hcirc", "\u0124", false⟩, ⟨"Hfr", "\u210c", false⟩, ⟨"HilbertSpace", "\u210b", false⟩,
  ⟨"Hopf", "\u210d", false⟩, ⟨"HorizontalLine", "\u2500", false⟩, ⟨"Hscr", "\u210b", false⟩,
  ⟨"Hstrok", "\u0126", false⟩, ⟨"HumpDownHump", "\u224e", false⟩, ⟨"HumpEqual", "\u224f", false⟩,
  ⟨"IEcy", "\u0415", false⟩, ⟨"IJlig", "\u0132", false⟩, ⟨"IOcy", "\u0401", false⟩,
  ⟨"Iacute", "\xcd", true⟩, ⟨"Icirc", "\xce", true⟩, ⟨"Icy", "\u0418", false⟩,
  ⟨"Idot", "\u0130", false⟩, ⟨"Ifr", "\u2111", false⟩, ⟨"Igrave", "\xcc", true⟩,
  ⟨"Im", "\u2111", false⟩, ⟨"Imacr", "\u012a", false⟩, ⟨"ImaginaryI", "\u2148", false⟩,
  ⟨"Implies", "\u21d2", false⟩, ⟨"Int", "\u222c", false⟩, ⟨"Integral", "\u222b", false⟩,
  ⟨"Intersection", "\u22c2", false⟩, ⟨"InvisibleComma", "\u2063", false⟩,
  ⟨"InvisibleTimes", "\u2062", false⟩, ⟨"Iogon", "\u012e", false⟩, ⟨"Iopf", "𝕀", false⟩,
  ⟨"Iota", "\u0399", false⟩, ⟨"Iscr", "\u2110", false⟩, ⟨"Itilde", "\u0128", false⟩,
  ⟨"Iukcy", "\u0406", false⟩, ⟨"Iuml", "\xcf", true⟩, ⟨"Jcirc", "\u0134", false⟩,
  ⟨"Jcy", "\u0419", false⟩, ⟨"Jfr", "𝔍", false⟩, ⟨"Jopf", "𝕁", false⟩, ⟨"Jscr", "𝒥", false⟩,
  ⟨"Jsercy", "\u0408", false⟩, ⟨"Jukcy", "\u0404", false⟩, ⟨"KHcy", "\u0425", false⟩,
  ⟨"KJcy", "\u040c", false⟩, ⟨"Kappa", "\u039a", false⟩, ⟨"Kcedil", "\u0136", false⟩,
  ⟨"Kcy", "\u041a", false⟩, ⟨"Kfr", "𝔎", false⟩, ⟨"Kopf", "𝕂", false⟩, ⟨"Kscr", "𝒦", false⟩,
  ⟨"LJcy", "\u0409", false⟩, ⟨"LT", "<", true⟩, ⟨"Lacute", "\u0139", false⟩,
  ⟨"Lambda", "\u039b", false⟩, ⟨"Lang", "\u27ea", false⟩, ⟨"Laplacetrf", "\u2112", false⟩,
  ⟨"Larr", "\u219e", false⟩, ⟨"Lcaron", "\u013d", false⟩, ⟨"Lcedil", "\u013b", false⟩,
  ⟨"Lcy", "\u041b", false⟩, ⟨"LeftAngleBracket", "\u27e8", false⟩,
  ⟨"LeftArrow", "\u2190", false⟩, ⟨"LeftArrowBar", "\u21e4", false⟩,
  ⟨"LeftArrowRightArrow", "\u21c6", false⟩, ⟨"LeftCeiling", "\u2308", false⟩,
  ⟨"LeftDoubleBracket", "\u27e6", false⟩, ⟨"LeftDownTeeVector", "\u2961", false⟩,
  ⟨"LeftDownVector", "\u21c3", false⟩, ⟨"LeftDownVectorBar", "\u2959", false⟩,
  ⟨"LeftFloor", "\u230a", false⟩, ⟨"LeftRightArrow", "\u2194", false⟩,
  ⟨"LeftRightVector", "\u294e", false⟩, ⟨"LeftTee", "\u22a3", false⟩,
  ⟨"LeftTeeArrow", "\u21a4", false⟩, ⟨"LeftTeeVector", "\u295a", false⟩,
  ⟨"LeftTriangle", "\u22b2", false⟩, ⟨"LeftTriangleBar", "\u29cf", false⟩,
  ⟨"LeftTriangleEqual", "\u22b4", false⟩, ⟨"LeftUpDownVector", "\u2951", false⟩,
  ⟨"LeftUpTeeVector", "\u2960", false⟩, ⟨"LeftUpVector", "\u21bf", false⟩,
  ⟨"LeftUpVectorBar", "\u2958", false⟩, ⟨"LeftVector", "\u21bc", false⟩,
  ⟨"LeftVectorBar", "\u2952", false⟩, ⟨"Leftarrow", "\u21d0", false⟩,
  ⟨"Leftrightarrow", "\u21d4", false⟩, ⟨"LessEqualGreater", "\u22da", false⟩,
  ⟨"LessFullEqual", "\u2266", false⟩, ⟨"LessGreater", "\u2276", false⟩,
  ⟨"LessLess", "\u2aa1", false⟩, ⟨"LessSlantEqual", "\u2a7d", false⟩,
  ⟨"LessTilde", "\u2272", false⟩, ⟨"Lfr", "𝔏", false⟩, ⟨"Ll", "\u22d8", false⟩,
  ⟨"Lleftarrow", "\u21da", false⟩, ⟨"Lmidot", "\u013f", false⟩,
  ⟨"LongLeftArrow", "\u27f5", false⟩, ⟨"LongLeftRightArrow", "\u27f7", false⟩,
  ⟨"LongRightArrow", "\u27f6", false⟩, ⟨"Longleftarrow", "\u27f8", false⟩,
  ⟨"Longleftrightarrow", "\u27fa", false⟩, ⟨"Longrightarrow", "\u27f9", false⟩,
  ⟨"Lopf", "𝕃", false⟩, ⟨"LowerLeftArrow", "\u2199", false⟩,
  ⟨"LowerRightArrow", "\u2198", false⟩]

/-- The names from `Lscr` to `Re`. -/
def fromLscr : List NamedReference := [
  ⟨"Lscr", "\u2112", false⟩, ⟨"Lsh", "\u21b0", false⟩, ⟨"Lstrok", "\u0141", false⟩,
  ⟨"Lt", "\u226a", false⟩, ⟨"Map", "\u2905", false⟩, ⟨"Mcy", "\u041c", false⟩,
  ⟨"MediumSpace", "\u205f", false⟩, ⟨"Mellintrf", "\u2133", false⟩, ⟨"Mfr", "𝔐", false⟩,
  ⟨"MinusPlus", "\u2213", false⟩, ⟨"Mopf", "𝕄", false⟩, ⟨"Mscr", "\u2133", false⟩,
  ⟨"Mu", "\u039c", false⟩, ⟨"NJcy", "\u040a", false⟩, ⟨"Nacute", "\u0143", false⟩,
  ⟨"Ncaron", "\u0147", false⟩, ⟨"Ncedil", "\u0145", false⟩, ⟨"Ncy", "\u041d", false⟩,
  ⟨"NegativeMediumSpace", "\u200b", false⟩, ⟨"NegativeThickSpace", "\u200b", false⟩,
  ⟨"NegativeThinSpace", "\u200b", false⟩, ⟨"NegativeVeryThinSpace", "\u200b", false⟩,
  ⟨"NestedGreaterGreater", "\u226b", false⟩, ⟨"NestedLessLess", "\u226a", false⟩,
  ⟨"NewLine", "\x0a", false⟩, ⟨"Nfr", "𝔑", false⟩, ⟨"NoBreak", "\u2060", false⟩,
  ⟨"NonBreakingSpace", "\xa0", false⟩, ⟨"Nopf", "\u2115", false⟩, ⟨"Not", "\u2aec", false⟩,
  ⟨"NotCongruent", "\u2262", false⟩, ⟨"NotCupCap", "\u226d", false⟩,
  ⟨"NotDoubleVerticalBar", "\u2226", false⟩, ⟨"NotElement", "\u2209", false⟩,
  ⟨"NotEqual", "\u2260", false⟩, ⟨"NotEqualTilde", "\u2242\u0338", false⟩,
  ⟨"NotExists", "\u2204", false⟩, ⟨"NotGreater", "\u226f", false⟩,
  ⟨"NotGreaterEqual", "\u2271", false⟩, ⟨"NotGreaterFullEqual", "\u2267\u0338", false⟩,
  ⟨"NotGreaterGreater", "\u226b\u0338", false⟩, ⟨"NotGreaterLess", "\u2279", false⟩,
  ⟨"NotGreaterSlantEqual", "\u2a7e\u0338", false⟩, ⟨"NotGreaterTilde", "\u2275", false⟩,
  ⟨"NotHumpDownHump", "\u224e\u0338", false⟩, ⟨"NotHumpEqual", "\u224f\u0338", false⟩,
  ⟨"NotLeftTriangle", "\u22ea", false⟩, ⟨"NotLeftTriangleBar", "\u29cf\u0338", false⟩,
  ⟨"NotLeftTriangleEqual", "\u22ec", false⟩, ⟨"NotLess", "\u226e", false⟩,
  ⟨"NotLessEqual", "\u2270", false⟩, ⟨"NotLessGreater", "\u2278", false⟩,
  ⟨"NotLessLess", "\u226a\u0338", false⟩, ⟨"NotLessSlantEqual", "\u2a7d\u0338", false⟩,
  ⟨"NotLessTilde", "\u2274", false⟩, ⟨"NotNestedGreaterGreater", "\u2aa2\u0338", false⟩,
  ⟨"NotNestedLessLess", "\u2aa1\u0338", false⟩, ⟨"NotPrecedes", "\u2280", false⟩,
  ⟨"NotPrecedesEqual", "\u2aaf\u0338", false⟩, ⟨"NotPrecedesSlantEqual", "\u22e0", false⟩,
  ⟨"NotReverseElement", "\u220c", false⟩, ⟨"NotRightTriangle", "\u22eb", false⟩,
  ⟨"NotRightTriangleBar", "\u29d0\u0338", false⟩, ⟨"NotRightTriangleEqual", "\u22ed", false⟩,
  ⟨"NotSquareSubset", "\u228f\u0338", false⟩, ⟨"NotSquareSubsetEqual", "\u22e2", false⟩,
  ⟨"NotSquareSuperset", "\u2290\u0338", false⟩, ⟨"NotSquareSupersetEqual", "\u22e3", false⟩,
  ⟨"NotSubset", "\u2282\u20d2", false⟩, ⟨"NotSubsetEqual", "\u2288", false⟩,
  ⟨"NotSucceeds", "\u2281", false⟩, ⟨"NotSucceedsEqual", "\u2ab0\u0338", false⟩,
  ⟨"NotSucceedsSlantEqual", "\u22e1", false⟩, ⟨"NotSucceedsTilde", "\u227f\u0338", false⟩,
  ⟨"NotSuperset", "\u2283\u20d2", false⟩, ⟨"NotSupersetEqual", "\u2289", false⟩,
  ⟨"NotTilde", "\u2241", false⟩, ⟨"NotTildeEqual", "\u2244", false⟩,
  ⟨"NotTildeFullEqual", "\u2247", false⟩, ⟨"NotTildeTilde", "\u2249", false⟩,
  ⟨"NotVerticalBar", "\u2224", false⟩, ⟨"Nscr", "𝒩", false⟩, ⟨"Ntilde", "\xd1", true⟩,
  ⟨"Nu", "\u039d", false⟩, ⟨"OElig", "\u0152", false⟩, ⟨"Oacute", "\xd3", true⟩,
  ⟨"Ocirc", "\xd4", true⟩, ⟨"Ocy", "\u041e", false⟩, ⟨"Odblac", "\u0150", false⟩,
  ⟨"Ofr", "𝔒", false⟩, ⟨"Ograve", "\xd2", true⟩, ⟨"Omacr", "\u014c", false⟩,
  ⟨"Omega", "\u03a9", false⟩, ⟨"Omicron", "\u039f", false⟩, ⟨"Oopf", "𝕆", false⟩,
  ⟨"OpenCurlyDoubleQuote", "\u201c", false⟩, ⟨"OpenCurlyQuote", "\u2018", false⟩,
  ⟨"Or", "\u2a54", false⟩, ⟨"Oscr", "𝒪", false⟩, ⟨"Oslash", "\xd8", true⟩,
  ⟨"Otilde", "\xd5", true⟩, ⟨"Otimes", "\u2a37", false⟩, ⟨"Ouml", "\xd6", true⟩,
  ⟨"OverBar", "\u203e", false⟩, ⟨"OverBrace", "\u23de", false⟩, ⟨"OverBracket", "\u23b4", false⟩,
  ⟨"OverParenthesis", "\u23dc", false⟩, ⟨"PartialD", "\u2202", false⟩, ⟨"Pcy", "\u041f", false⟩,
  ⟨"Pfr", "𝔓", false⟩, ⟨"Phi", "\u03a6", false⟩, ⟨"Pi", "\u03a0", false⟩,
  ⟨"PlusMinus", "\xb1", false⟩, ⟨"Poincareplane", "\u210c", false⟩, ⟨"Popf", "\u2119", false⟩,
  ⟨"Pr", "\u2abb", false⟩, ⟨"Precedes", "\u227a", false⟩, ⟨"PrecedesEqual", "\u2aaf", false⟩,
  ⟨"PrecedesSlantEqual", "\u227c", false⟩, ⟨"PrecedesTilde", "\u227e", false⟩,
  ⟨"Prime", "\u2033", false⟩, ⟨"Product", "\u220f", false⟩, ⟨"Proportion", "\u2237", false⟩,
  ⟨"Proportional", "\u221d", false⟩, ⟨"Pscr", "𝒫", false⟩, ⟨"Psi", "\u03a8", false⟩,
  ⟨"QUOT", "\"", true⟩, ⟨"Qfr", "𝔔", false⟩, ⟨"Qopf", "\u211a", false⟩, ⟨"Qscr", "𝒬", false⟩,
  ⟨"RBarr", "\u2910", false⟩, ⟨"REG", "\xae", true⟩, ⟨"Racute", "\u0154", false⟩,
  ⟨"Rang", "\u27eb", false⟩, ⟨"Rarr", "\u21a0", false⟩, ⟨"Rarrtl", "\u2916", false⟩,
  ⟨"Rcaron", "\u0158", false⟩, ⟨"Rcedil", "\u0156", false⟩, ⟨"Rcy", "\u0420", false⟩,
  ⟨"Re", "\u211c", false⟩]

/-- The names from `ReverseElement` to `Vert`. -/
def fromReverseElement : List NamedReference := [
  ⟨"ReverseElement", "\u220b", false⟩, ⟨"ReverseEquilibrium", "\u21cb", false⟩,
  ⟨"ReverseUpEquilibrium", "\u296f", false⟩, ⟨"Rfr", "\u211c", false⟩, ⟨"Rho", "\u03a1", false⟩,
  ⟨"RightAngleBracket", "\u27e9", false⟩, ⟨"RightArrow", "\u2192", false⟩,
  ⟨"RightArrowBar", "\u21e5", false⟩, ⟨"RightArrowLeftArrow", "\u21c4", false⟩,
  ⟨"RightCeiling", "\u2309", false⟩, ⟨"RightDoubleBracket", "\u27e7", false⟩,
  ⟨"RightDownTeeVector", "\u295d", false⟩, ⟨"RightDownVector", "\u21c2", false⟩,
  ⟨"RightDownVectorBar", "\u2955", false⟩, ⟨"RightFloor", "\u230b", false⟩,
  ⟨"RightTee", "\u22a2", false⟩, ⟨"RightTeeArrow", "\u21a6", false⟩,
  ⟨"RightTeeVector", "\u295b", false⟩, ⟨"RightTriangle", "\u22b3", false⟩,
  ⟨"RightTriangleBar", "\u29d0", false⟩, ⟨"RightTriangleEqual", "\u22b5", false⟩,
  ⟨"RightUpDownVector", "\u294f", false⟩, ⟨"RightUpTeeVector", "\u295c", false⟩,
  ⟨"RightUpVector", "\u21be", false⟩, ⟨"RightUpVectorBar", "\u2954", false⟩,
  ⟨"RightVector", "\u21c0", false⟩, ⟨"RightVectorBar", "\u2953", false⟩,
  ⟨"Rightarrow", "\u21d2", false⟩, ⟨"Ropf", "\u211d", false⟩, ⟨"RoundImplies", "\u2970", false⟩,
  ⟨"Rrightarrow", "\u21db", false⟩, ⟨"Rscr", "\u211b", false⟩, ⟨"Rsh", "\u21b1", false⟩,
  ⟨"RuleDelayed", "\u29f4", false⟩, ⟨"SHCHcy", "\u0429", false⟩, ⟨"SHcy", "\u0428", false⟩,
  ⟨"SOFTcy", "\u042c", false⟩, ⟨"Sacute", "\u015a", false⟩, ⟨"Sc", "\u2abc", false⟩,
  ⟨"Scaron", "\u0160", false⟩, ⟨"Scedil", "\u015e", false⟩, ⟨"Scirc", "\u015c", false⟩,
  ⟨"Scy", "\u0421", false⟩, ⟨"Sfr", "𝔖", false⟩, ⟨"ShortDownArrow", "\u2193", false⟩,
  ⟨"ShortLeftArrow", "\u2190", false⟩, ⟨"ShortRightArrow", "\u2192", false⟩,
  ⟨"ShortUpArrow", "\u2191", false⟩, ⟨"Sigma", "\u03a3", false⟩,
  ⟨"SmallCircle", "\u2218", false⟩, ⟨"Sopf", "𝕊", false⟩, ⟨"Sqrt", "\u221a", false⟩,
  ⟨"Square", "\u25a1", false⟩, ⟨"SquareIntersection", "\u2293", false⟩,
  ⟨"SquareSubset", "\u228f", false⟩, ⟨"SquareSubsetEqual", "\u2291", false⟩,
  ⟨"SquareSuperset", "\u2290", false⟩, ⟨"SquareSupersetEqual", "\u2292", false⟩,
  ⟨"SquareUnion", "\u2294", false⟩, ⟨"Sscr", "𝒮", false⟩, ⟨"Star", "\u22c6", false⟩,
  ⟨"Sub", "\u22d0", false⟩, ⟨"Subset", "\u22d0", false⟩, ⟨"SubsetEqual", "\u2286", false⟩,
  ⟨"Succeeds", "\u227b", false⟩, ⟨"SucceedsEqual", "\u2ab0", false⟩,
  ⟨"SucceedsSlantEqual", "\u227d", false⟩, ⟨"SucceedsTilde", "\u227f", false⟩,
  ⟨"SuchThat", "\u220b", false⟩, ⟨"Sum", "\u2211", false⟩, ⟨"Sup", "\u22d1", false⟩,
  ⟨"Superset", "\u2283", false⟩, ⟨"SupersetEqual", "\u2287", false⟩, ⟨"Supset", "\u22d1", false⟩,
  ⟨"THORN", "\xde", true⟩, ⟨"TRADE", "\u2122", false⟩, ⟨"TSHcy", "\u040b", false⟩,
  ⟨"TScy", "\u0426", false⟩, ⟨"Tab", "\x09", false⟩, ⟨"Tau", "\u03a4", false⟩,
  ⟨"Tcaron", "\u0164", false⟩, ⟨"Tcedil", "\u0162", false⟩, ⟨"Tcy", "\u0422", false⟩,
  ⟨"Tfr", "𝔗", false⟩, ⟨"Therefore", "\u2234", false⟩, ⟨"Theta", "\u0398", false⟩,
  ⟨"ThickSpace", "\u205f\u200a", false⟩, ⟨"ThinSpace", "\u2009", false⟩,
  ⟨"Tilde", "\u223c", false⟩, ⟨"TildeEqual", "\u2243", false⟩,
  ⟨"TildeFullEqual", "\u2245", false⟩, ⟨"TildeTilde", "\u2248", false⟩, ⟨"Topf", "𝕋", false⟩,
  ⟨"TripleDot", "\u20db", false⟩, ⟨"Tscr", "𝒯", false⟩, ⟨"Tstrok", "\u0166", false⟩,
  ⟨"Uacute", "\xda", true⟩, ⟨"Uarr", "\u219f", false⟩, ⟨"Uarrocir", "\u2949", false⟩,
  ⟨"Ubrcy", "\u040e", false⟩, ⟨"Ubreve", "\u016c", false⟩, ⟨"Ucirc", "\xdb", true⟩,
  ⟨"Ucy", "\u0423", false⟩, ⟨"Udblac", "\u0170", false⟩, ⟨"Ufr", "𝔘", false⟩,
  ⟨"Ugrave", "\xd9", true⟩, ⟨"Umacr", "\u016a", false⟩, ⟨"UnderBar", "_", false⟩,
  ⟨"UnderBrace", "\u23df", false⟩, ⟨"UnderBracket", "\u23b5", false⟩,
  ⟨"UnderParenthesis", "\u23dd", false⟩, ⟨"Union", "\u22c3", false⟩,
  ⟨"UnionPlus", "\u228e", false⟩, ⟨"Uogon", "\u0172", false⟩, ⟨"Uopf", "𝕌", false⟩,
  ⟨"UpArrow", "\u2191", false⟩, ⟨"UpArrowBar", "\u2912", false⟩,
  ⟨"UpArrowDownArrow", "\u21c5", false⟩, ⟨"UpDownArrow", "\u2195", false⟩,
  ⟨"UpEquilibrium", "\u296e", false⟩, ⟨"UpTee", "\u22a5", false⟩,
  ⟨"UpTeeArrow", "\u21a5", false⟩, ⟨"Uparrow", "\u21d1", false⟩,
  ⟨"Updownarrow", "\u21d5", false⟩, ⟨"UpperLeftArrow", "\u2196", false⟩,
  ⟨"UpperRightArrow", "\u2197", false⟩, ⟨"Upsi", "\u03d2", false⟩, ⟨"Upsilon", "\u03a5", false⟩,
  ⟨"Uring", "\u016e", false⟩, ⟨"Uscr", "𝒰", false⟩, ⟨"Utilde", "\u0168", false⟩,
  ⟨"Uuml", "\xdc", true⟩, ⟨"VDash", "\u22ab", false⟩, ⟨"Vbar", "\u2aeb", false⟩,
  ⟨"Vcy", "\u0412", false⟩, ⟨"Vdash", "\u22a9", false⟩, ⟨"Vdashl", "\u2ae6", false⟩,
  ⟨"Vee", "\u22c1", false⟩, ⟨"Verbar", "\u2016", false⟩, ⟨"Vert", "\u2016", false⟩]

/-- The names from `VerticalBar` to `blacktriangleleft`. -/
def fromVerticalBar : List NamedReference := [
  ⟨"VerticalBar", "\u2223", false⟩, ⟨"VerticalLine", "|", false⟩,
  ⟨"VerticalSeparator", "\u2758", false⟩, ⟨"VerticalTilde", "\u2240", false⟩,
  ⟨"VeryThinSpace", "\u200a", false⟩, ⟨"Vfr", "𝔙", false⟩, ⟨"Vopf", "𝕍", false⟩,
  ⟨"Vscr", "𝒱", false⟩, ⟨"Vvdash", "\u22aa", false⟩, ⟨"Wcirc", "\u0174", false⟩,
  ⟨"Wedge", "\u22c0", false⟩, ⟨"Wfr", "𝔚", false⟩, ⟨"Wopf", "𝕎", false⟩, ⟨"Wscr", "𝒲", false⟩,
  ⟨"Xfr", "𝔛", false⟩, ⟨"Xi", "\u039e", false⟩, ⟨"Xopf", "𝕏", false⟩, ⟨"Xscr", "𝒳", false⟩,
  ⟨"YAcy", "\u042f", false⟩, ⟨"YIcy", "\u0407", false⟩, ⟨"YUcy", "\u042e", false⟩,
  ⟨"Yacute", "\xdd", true⟩, ⟨"Ycirc", "\u0176", false⟩, ⟨"Ycy", "\u042b", false⟩,
  ⟨"Yfr", "𝔜", false⟩, ⟨"Yopf", "𝕐", false⟩, ⟨"Yscr", "𝒴", false⟩, ⟨"Yuml", "\u0178", false⟩,
  ⟨"ZHcy", "\u0416", false⟩, ⟨"Zacute", "\u0179", false⟩, ⟨"Zcaron", "\u017d", false⟩,
  ⟨"Zcy", "\u0417", false⟩, ⟨"Zdot", "\u017b", false⟩, ⟨"ZeroWidthSpace", "\u200b", false⟩,
  ⟨"Zeta", "\u0396", false⟩, ⟨"Zfr", "\u2128", false⟩, ⟨"Zopf", "\u2124", false⟩,
  ⟨"Zscr", "𝒵", false⟩, ⟨"aacute", "\xe1", true⟩, ⟨"abreve", "\u0103", false⟩,
  ⟨"ac", "\u223e", false⟩, ⟨"acE", "\u223e\u0333", false⟩, ⟨"acd", "\u223f", false⟩,
  ⟨"acirc", "\xe2", true⟩, ⟨"acute", "\xb4", true⟩, ⟨"acy", "\u0430", false⟩,
  ⟨"aelig", "\xe6", true⟩, ⟨"af", "\u2061", false⟩, ⟨"afr", "𝔞", false⟩,
  ⟨"agrave", "\xe0", true⟩, ⟨"alefsym", "\u2135", false⟩, ⟨"aleph", "\u2135", false⟩,
  ⟨"alpha", "\u03b1", false⟩, ⟨"amacr", "\u0101", false⟩, ⟨"amalg", "\u2a3f", false⟩,
  ⟨"amp", "&", true⟩, ⟨"and", "\u2227", false⟩, ⟨"andand", "\u2a55", false⟩,
  ⟨"andd", "\u2a5c", false⟩, ⟨"andslope", "\u2a58", false⟩, ⟨"andv", "\u2a5a", false⟩,
  ⟨"ang", "\u2220", false⟩, ⟨"ange", "\u29a4", false⟩, ⟨"angle", "\u2220", false⟩,
  ⟨"angmsd", "\u2221", false⟩, ⟨"angmsdaa", "\u29a8", false⟩, ⟨"angmsdab", "\u29a9", false⟩,
  ⟨"angmsdac", "\u29aa", false⟩, ⟨"angmsdad", "\u29ab", false⟩, ⟨"angmsdae", "\u29ac", false⟩,
  ⟨"angmsdaf", "\u29ad", false⟩, ⟨"angmsdag", "\u29ae", false⟩, ⟨"angmsdah", "\u29af", false⟩,
  ⟨"angrt", "\u221f", false⟩, ⟨"angrtvb", "\u22be", false⟩, ⟨"angrtvbd", "\u299d", false⟩,
  ⟨"angsph", "\u2222", false⟩, ⟨"angst", "\xc5", false⟩, ⟨"angzarr", "\u237c", false⟩,
  ⟨"aogon", "\u0105", false⟩, ⟨"aopf", "𝕒", false⟩, ⟨"ap", "\u2248", false⟩,
  ⟨"apE", "\u2a70", false⟩, ⟨"apacir", "\u2a6f", false⟩, ⟨"ape", "\u224a", false⟩,
  ⟨"apid", "\u224b", false⟩, ⟨"apos", "'", false⟩, ⟨"approx", "\u2248", false⟩,
  ⟨"approxeq", "\u224a", false⟩, ⟨"aring", "\xe5", true⟩, ⟨"ascr", "𝒶", false⟩,
  ⟨"ast", "*", false⟩, ⟨"asymp", "\u2248", false⟩, ⟨"asympeq", "\u224d", false⟩,
  ⟨"atilde", "\xe3", true⟩, ⟨"auml", "\xe4", true⟩, ⟨"awconint", "\u2233", false⟩,
  ⟨"awint", "\u2a11", false⟩, ⟨"bNot", "\u2aed", false⟩, ⟨"backcong", "\u224c", false⟩,
  ⟨"backepsilon", "\u03f6", false⟩, ⟨"backprime", "\u2035", false⟩, ⟨"backsim", "\u223d", false⟩,
  ⟨"backsimeq", "\u22cd", false⟩, ⟨"barvee", "\u22bd", false⟩, ⟨"barwed", "\u2305", false⟩,
  ⟨"barwedge", "\u2305", false⟩, ⟨"bbrk", "\u23b5", false⟩, ⟨"bbrktbrk", "\u23b6", false⟩,
  ⟨"bcong", "\u224c", false⟩, ⟨"bcy", "\u0431", false⟩, ⟨"bdquo", "\u201e", false⟩,
  ⟨"becaus", "\u2235", false⟩, ⟨"because", "\u2235", false⟩, ⟨"bemptyv", "\u29b0", false⟩,
  ⟨"bepsi", "\u03f6", false⟩, ⟨"bernou", "\u212c", false⟩, ⟨"beta", "\u03b2", false⟩,
  ⟨"beth", "\u2136", false⟩, ⟨"between", "\u226c", false⟩, ⟨"bfr", "𝔟", false⟩,
  ⟨"bigcap", "\u22c2", false⟩, ⟨"bigcirc", "\u25ef", false⟩, ⟨"bigcup", "\u22c3", false⟩,
  ⟨"bigodot", "\u2a00", false⟩, ⟨"bigoplus", "\u2a01", false⟩, ⟨"bigotimes", "\u2a02", false⟩,
  ⟨"bigsqcup", "\u2a06", false⟩, ⟨"bigstar", "\u2605", false⟩,
  ⟨"bigtriangledown", "\u25bd", false⟩, ⟨"bigtriangleup", "\u25b3", false⟩,
  ⟨"biguplus", "\u2a04", false⟩, ⟨"bigvee", "\u22c1", false⟩, ⟨"bigwedge", "\u22c0", false⟩,
  ⟨"bkarow", "\u290d", false⟩, ⟨"blacklozenge", "\u29eb", false⟩,
  ⟨"blacksquare", "\u25aa", false⟩, ⟨"blacktriangle", "\u25b4", false⟩,
  ⟨"blacktriangledown", "\u25be", false⟩, ⟨"blacktriangleleft", "\u25c2", false⟩]

/-- The names from `blacktriangleright` to `ctdot`. -/
def fromBlacktriangleright : List NamedReference := [
  ⟨"blacktriangleright", "\u25b8", false⟩, ⟨"blank", "\u2423", false⟩,
  ⟨"blk12", "\u2592", false⟩, ⟨"blk14", "\u2591", false⟩, ⟨"blk34", "\u2593", false⟩,
  ⟨"block", "\u2588", false⟩, ⟨"bne", "=\u20e5", false⟩, ⟨"bnequiv", "\u2261\u20e5", false⟩,
  ⟨"bnot", "\u2310", false⟩, ⟨"bopf", "𝕓", false⟩, ⟨"bot", "\u22a5", false⟩,
  ⟨"bottom", "\u22a5", false⟩, ⟨"bowtie", "\u22c8", false⟩, ⟨"boxDL", "\u2557", false⟩,
  ⟨"boxDR", "\u2554", false⟩, ⟨"boxDl", "\u2556", false⟩, ⟨"boxDr", "\u2553", false⟩,
  ⟨"boxH", "\u2550", false⟩, ⟨"boxHD", "\u2566", false⟩, ⟨"boxHU", "\u2569", false⟩,
  ⟨"boxHd", "\u2564", false⟩, ⟨"boxHu", "\u2567", false⟩, ⟨"boxUL", "\u255d", false⟩,
  ⟨"boxUR", "\u255a", false⟩, ⟨"boxUl", "\u255c", false⟩, ⟨"boxUr", "\u2559", false⟩,
  ⟨"boxV", "\u2551", false⟩, ⟨"boxVH", "\u256c", false⟩, ⟨"boxVL", "\u2563", false⟩,
  ⟨"boxVR", "\u2560", false⟩, ⟨"boxVh", "\u256b", false⟩, ⟨"boxVl", "\u2562", false⟩,
  ⟨"boxVr", "\u255f", false⟩, ⟨"boxbox", "\u29c9", false⟩, ⟨"boxdL", "\u2555", false⟩,
  ⟨"boxdR", "\u2552", false⟩, ⟨"boxdl", "\u2510", false⟩, ⟨"boxdr", "\u250c", false⟩,
  ⟨"boxh", "\u2500", false⟩, ⟨"boxhD", "\u2565", false⟩, ⟨"boxhU", "\u2568", false⟩,
  ⟨"boxhd", "\u252c", false⟩, ⟨"boxhu", "\u2534", false⟩, ⟨"boxminus", "\u229f", false⟩,
  ⟨"boxplus", "\u229e", false⟩, ⟨"boxtimes", "\u22a0", false⟩, ⟨"boxuL", "\u255b", false⟩,
  ⟨"boxuR", "\u2558", false⟩, ⟨"boxul", "\u2518", false⟩, ⟨"boxur", "\u2514", false⟩,
  ⟨"boxv", "\u2502", false⟩, ⟨"boxvH", "\u256a", false⟩, ⟨"boxvL", "\u2561", false⟩,
  ⟨"boxvR", "\u255e", false⟩, ⟨"boxvh", "\u253c", false⟩, ⟨"boxvl", "\u2524", false⟩,
  ⟨"boxvr", "\u251c", false⟩, ⟨"bprime", "\u2035", false⟩, ⟨"breve", "\u02d8", false⟩,
  ⟨"brvbar", "\xa6", true⟩, ⟨"bscr", "𝒷", false⟩, ⟨"bsemi", "\u204f", false⟩,
  ⟨"bsim", "\u223d", false⟩, ⟨"bsime", "\u22cd", false⟩, ⟨"bsol", "\\", false⟩,
  ⟨"bsolb", "\u29c5", false⟩, ⟨"bsolhsub", "\u27c8", false⟩, ⟨"bull", "\u2022", false⟩,
  ⟨"bullet", "\u2022", false⟩, ⟨"bump", "\u224e", false⟩, ⟨"bumpE", "\u2aae", false⟩,
  ⟨"bumpe", "\u224f", false⟩, ⟨"bumpeq", "\u224f", false⟩, ⟨"cacute", "\u0107", false⟩,
  ⟨"cap", "\u2229", false⟩, ⟨"capand", "\u2a44", false⟩, ⟨"capbrcup", "\u2a49", false⟩,
  ⟨"capcap", "\u2a4b", false⟩, ⟨"capcup", "\u2a47", false⟩, ⟨"capdot", "\u2a40", false⟩,
  ⟨"caps", "\u2229\ufe00", false⟩, ⟨"caret", "\u2041", false⟩, ⟨"caron", "\u02c7", false⟩,
  ⟨"ccaps", "\u2a4d", false⟩, ⟨"ccaron", "\u010d", false⟩, ⟨"ccedil", "\xe7", true⟩,
  ⟨"ccirc", "\u0109", false⟩, ⟨"ccups", "\u2a4c", false⟩, ⟨"ccupssm", "\u2a50", false⟩,
  ⟨"cdot", "\u010b", false⟩, ⟨"cedil", "\xb8", true⟩, ⟨"cemptyv", "\u29b2", false⟩,
  ⟨"cent", "\xa2", true⟩, ⟨"centerdot", "\xb7", false⟩, ⟨"cfr", "𝔠", false⟩,
  ⟨"chcy", "\u0447", false⟩, ⟨"check", "\u2713", false⟩, ⟨"checkmark", "\u2713", false⟩,
  ⟨"chi", "\u03c7", false⟩, ⟨"cir", "\u25cb", false⟩, ⟨"cirE", "\u29c3", false⟩,
  ⟨"circ", "\u02c6", false⟩, ⟨"circeq", "\u2257", false⟩, ⟨"circlearrowleft", "\u21ba", false⟩,
  ⟨"circlearrowright", "\u21bb", false⟩, ⟨"circledR", "\xae", false⟩,
  ⟨"circledS", "\u24c8", false⟩, ⟨"circledast", "\u229b", false⟩,
  ⟨"circledcirc", "\u229a", false⟩, ⟨"circleddash", "\u229d", false⟩, ⟨"cire", "\u2257", false⟩,
  ⟨"cirfnint", "\u2a10", false⟩, ⟨"cirmid", "\u2aef", false⟩, ⟨"cirscir", "\u29c2", false⟩,
  ⟨"clubs", "\u2663", false⟩, ⟨"clubsuit", "\u2663", false⟩, ⟨"colon", ":", false⟩,
  ⟨"colone", "\u2254", false⟩, ⟨"coloneq", "\u2254", false⟩, ⟨"comma", ",", false⟩,
  ⟨"commat", "@", false⟩, ⟨"comp", "\u2201", false⟩, ⟨"compfn", "\u2218", false⟩,
  ⟨"complement", "\u2201", false⟩, ⟨"complexes", "\u2102", false⟩, ⟨"cong", "\u2245", false⟩,
  ⟨"congdot", "\u2a6d", false⟩, ⟨"conint", "\u222e", false⟩, ⟨"copf", "𝕔", false⟩,
  ⟨"coprod", "\u2210", false⟩, ⟨"copy", "\xa9", true⟩, ⟨"copysr", "\u2117", false⟩,
  ⟨"crarr", "\u21b5", false⟩, ⟨"cross", "\u2717", false⟩, ⟨"cscr", "𝒸", false⟩,
  ⟨"csub", "\u2acf", false⟩, ⟨"csube", "\u2ad1", false⟩, ⟨"csup", "\u2ad0", false⟩,
  ⟨"csupe", "\u2ad2", false⟩, ⟨"ctdot", "\u22ef", false⟩]

/-- The names from `cudarrl` to `eqvparsl`. -/
def fromCudarrl : List NamedReference := [
  ⟨"cudarrl", "\u2938", false⟩, ⟨"cudarrr", "\u2935", false⟩, ⟨"cuepr", "\u22de", false⟩,
  ⟨"cuesc", "\u22df", false⟩, ⟨"cularr", "\u21b6", false⟩, ⟨"cularrp", "\u293d", false⟩,
  ⟨"cup", "\u222a", false⟩, ⟨"cupbrcap", "\u2a48", false⟩, ⟨"cupcap", "\u2a46", false⟩,
  ⟨"cupcup", "\u2a4a", false⟩, ⟨"cupdot", "\u228d", false⟩, ⟨"cupor", "\u2a45", false⟩,
  ⟨"cups", "\u222a\ufe00", false⟩, ⟨"curarr", "\u21b7", false⟩, ⟨"curarrm", "\u293c", false⟩,
  ⟨"curlyeqprec", "\u22de", false⟩, ⟨"curlyeqsucc", "\u22df", false⟩,
  ⟨"curlyvee", "\u22ce", false⟩, ⟨"curlywedge", "\u22cf", false⟩, ⟨"curren", "\xa4", true⟩,
  ⟨"curvearrowleft", "\u21b6", false⟩, ⟨"curvearrowright", "\u21b7", false⟩,
  ⟨"cuvee", "\u22ce", false⟩, ⟨"cuwed", "\u22cf", false⟩, ⟨"cwconint", "\u2232", false⟩,
  ⟨"cwint", "\u2231", false⟩, ⟨"cylcty", "\u232d", false⟩, ⟨"dArr", "\u21d3", false⟩,
  ⟨"dHar", "\u2965", false⟩, ⟨"dagger", "\u2020", false⟩, ⟨"daleth", "\u2138", false⟩,
  ⟨"darr", "\u2193", false⟩, ⟨"dash", "\u2010", false⟩, ⟨"dashv", "\u22a3", false⟩,
  ⟨"dbkarow", "\u290f", false⟩, ⟨"dblac", "\u02dd", false⟩, ⟨"dcaron", "\u010f", false⟩,
  ⟨"dcy", "\u0434", false⟩, ⟨"dd", "\u2146", false⟩, ⟨"ddagger", "\u2021", false⟩,
  ⟨"ddarr", "\u21ca", false⟩, ⟨"ddotseq", "\u2a77", false⟩, ⟨"deg", "\xb0", true⟩,
  ⟨"delta", "\u03b4", false⟩, ⟨"demptyv", "\u29b1", false⟩, ⟨"dfisht", "\u297f", false⟩,
  ⟨"dfr", "𝔡", false⟩, ⟨"dharl", "\u21c3", false⟩, ⟨"dharr", "\u21c2", false⟩,
  ⟨"diam", "\u22c4", false⟩, ⟨"diamond", "\u22c4", false⟩, ⟨"diamondsuit", "\u2666", false⟩,
  ⟨"diams", "\u2666", false⟩, ⟨"die", "\xa8", false⟩, ⟨"digamma", "\u03dd", false⟩,
  ⟨"disin", "\u22f2", false⟩, ⟨"div", "\xf7", false⟩, ⟨"divide", "\xf7", true⟩,
  ⟨"divideontimes", "\u22c7", false⟩, ⟨"divonx", "\u22c7", false⟩, ⟨"djcy", "\u0452", false⟩,
  ⟨"dlcorn", "\u231e", false⟩, ⟨"dlcrop", "\u230d", false⟩, ⟨"dollar", "$", false⟩,
  ⟨"dopf", "𝕕", false⟩, ⟨"dot", "\u02d9", false⟩, ⟨"doteq", "\u2250", false⟩,
  ⟨"doteqdot", "\u2251", false⟩, ⟨"dotminus", "\u2238", false⟩, ⟨"dotplus", "\u2214", false⟩,
  ⟨"dotsquare", "\u22a1", false⟩, ⟨"doublebarwedge", "\u2306", false⟩,
  ⟨"downarrow", "\u2193", false⟩, ⟨"downdownarrows", "\u21ca", false⟩,
  ⟨"downharpoonleft", "\u21c3", false⟩, ⟨"downharpoonright", "\u21c2", false⟩,
  ⟨"drbkarow", "\u2910", false⟩, ⟨"drcorn", "\u231f", false⟩, ⟨"drcrop", "\u230c", false⟩,
  ⟨"dscr", "𝒹", false⟩, ⟨"dscy", "\u0455", false⟩, ⟨"dsol", "\u29f6", false⟩,
  ⟨"dstrok", "\u0111", false⟩, ⟨"dtdot", "\u22f1", false⟩, ⟨"dtri", "\u25bf", false⟩,
  ⟨"dtrif", "\u25be", false⟩, ⟨"duarr", "\u21f5", false⟩, ⟨"duhar", "\u296f", false⟩,
  ⟨"dwangle", "\u29a6", false⟩, ⟨"dzcy", "\u045f", false⟩, ⟨"dzigrarr", "\u27ff", false⟩,
  ⟨"eDDot", "\u2a77", false⟩, ⟨"eDot", "\u2251", false⟩, ⟨"eacute", "\xe9", true⟩,
  ⟨"easter", "\u2a6e", false⟩, ⟨"ecaron", "\u011b", false⟩, ⟨"ecir", "\u2256", false⟩,
  ⟨"ecirc", "\xea", true⟩, ⟨"ecolon", "\u2255", false⟩, ⟨"ecy", "\u044d", false⟩,
  ⟨"edot", "\u0117", false⟩, ⟨"ee", "\u2147", false⟩, ⟨"efDot", "\u2252", false⟩,
  ⟨"efr", "𝔢", false⟩, ⟨"eg", "\u2a9a", false⟩, ⟨"egrave", "\xe8", true⟩,
  ⟨"egs", "\u2a96", false⟩, ⟨"egsdot", "\u2a98", false⟩, ⟨"el", "\u2a99", false⟩,
  ⟨"elinters", "\u23e7", false⟩, ⟨"ell", "\u2113", false⟩, ⟨"els", "\u2a95", false⟩,
  ⟨"elsdot", "\u2a97", false⟩, ⟨"emacr", "\u0113", false⟩, ⟨"empty", "\u2205", false⟩,
  ⟨"emptyset", "\u2205", false⟩, ⟨"emptyv", "\u2205", false⟩, ⟨"emsp", "\u2003", false⟩,
  ⟨"emsp13", "\u2004", false⟩, ⟨"emsp14", "\u2005", false⟩, ⟨"eng", "\u014b", false⟩,
  ⟨"ensp", "\u2002", false⟩, ⟨"eogon", "\u0119", false⟩, ⟨"eopf", "𝕖", false⟩,
  ⟨"epar", "\u22d5", false⟩, ⟨"eparsl", "\u29e3", false⟩, ⟨"eplus", "\u2a71", false⟩,
  ⟨"epsi", "\u03b5", false⟩, ⟨"epsilon", "\u03b5", false⟩, ⟨"epsiv", "\u03f5", false⟩,
  ⟨"eqcirc", "\u2256", false⟩, ⟨"eqcolon", "\u2255", false⟩, ⟨"eqsim", "\u2242", false⟩,
  ⟨"eqslantgtr", "\u2a96", false⟩, ⟨"eqslantless", "\u2a95", false⟩, ⟨"equals", "=", false⟩,
  ⟨"equest", "\u225f", false⟩, ⟨"equiv", "\u2261", false⟩, ⟨"equivDD", "\u2a78", false⟩,
  ⟨"eqvparsl", "\u29e5", false⟩]

/-- The names from `erDot` to `icy`. -/
def fromErDot : List NamedReference := [
  ⟨"erDot", "\u2253", false⟩, ⟨"erarr", "\u2971", false⟩, ⟨"escr", "\u212f", false⟩,
  ⟨"esdot", "\u2250", false⟩, ⟨"esim", "\u2242", false⟩, ⟨"eta", "\u03b7", false⟩,
  ⟨"eth", "\xf0", true⟩, ⟨"euml", "\xeb", true⟩, ⟨"euro", "\u20ac", false⟩, ⟨"excl", "!", false⟩,
  ⟨"exist", "\u2203", false⟩, ⟨"expectation", "\u2130", false⟩,
  ⟨"exponentiale", "\u2147", false⟩, ⟨"fallingdotseq", "\u2252", false⟩,
  ⟨"fcy", "\u0444", false⟩, ⟨"female", "\u2640", false⟩, ⟨"ffilig", "\ufb03", false⟩,
  ⟨"fflig", "\ufb00", false⟩, ⟨"ffllig", "\ufb04", false⟩, ⟨"ffr", "𝔣", false⟩,
  ⟨"filig", "\ufb01", false⟩, ⟨"fjlig", "fj", false⟩, ⟨"flat", "\u266d", false⟩,
  ⟨"fllig", "\ufb02", false⟩, ⟨"fltns", "\u25b1", false⟩, ⟨"fnof", "\u0192", false⟩,
  ⟨"fopf", "𝕗", false⟩, ⟨"forall", "\u2200", false⟩, ⟨"fork", "\u22d4", false⟩,
  ⟨"forkv", "\u2ad9", false⟩, ⟨"fpartint", "\u2a0d", false⟩, ⟨"frac12", "\xbd", true⟩,
  ⟨"frac13", "\u2153", false⟩, ⟨"frac14", "\xbc", true⟩, ⟨"frac15", "\u2155", false⟩,
  ⟨"frac16", "\u2159", false⟩, ⟨"frac18", "\u215b", false⟩, ⟨"frac23", "\u2154", false⟩,
  ⟨"frac25", "\u2156", false⟩, ⟨"frac34", "\xbe", true⟩, ⟨"frac35", "\u2157", false⟩,
  ⟨"frac38", "\u215c", false⟩, ⟨"frac45", "\u2158", false⟩, ⟨"frac56", "\u215a", false⟩,
  ⟨"frac58", "\u215d", false⟩, ⟨"frac78", "\u215e", false⟩, ⟨"frasl", "\u2044", false⟩,
  ⟨"frown", "\u2322", false⟩, ⟨"fscr", "𝒻", false⟩, ⟨"gE", "\u2267", false⟩,
  ⟨"gEl", "\u2a8c", false⟩, ⟨"gacute", "\u01f5", false⟩, ⟨"gamma", "\u03b3", false⟩,
  ⟨"gammad", "\u03dd", false⟩, ⟨"gap", "\u2a86", false⟩, ⟨"gbreve", "\u011f", false⟩,
  ⟨"gcirc", "\u011d", false⟩, ⟨"gcy", "\u0433", false⟩, ⟨"gdot", "\u0121", false⟩,
  ⟨"ge", "\u2265", false⟩, ⟨"gel", "\u22db", false⟩, ⟨"geq", "\u2265", false⟩,
  ⟨"geqq", "\u2267", false⟩, ⟨"geqslant", "\u2a7e", false⟩, ⟨"ges", "\u2a7e", false⟩,
  ⟨"gescc", "\u2aa9", false⟩, ⟨"gesdot", "\u2a80", false⟩, ⟨"gesdoto", "\u2a82", false⟩,
  ⟨"gesdotol", "\u2a84", false⟩, ⟨"gesl", "\u22db\ufe00", false⟩, ⟨"gesles", "\u2a94", false⟩,
  ⟨"gfr", "𝔤", false⟩, ⟨"gg", "\u226b", false⟩, ⟨"ggg", "\u22d9", false⟩,
  ⟨"gimel", "\u2137", false⟩, ⟨"gjcy", "\u0453", false⟩, ⟨"gl", "\u2277", false⟩,
  ⟨"glE", "\u2a92", false⟩, ⟨"gla", "\u2aa5", false⟩, ⟨"glj", "\u2aa4", false⟩,
  ⟨"gnE", "\u2269", false⟩, ⟨"gnap", "\u2a8a", false⟩, ⟨"gnapprox", "\u2a8a", false⟩,
  ⟨"gne", "\u2a88", false⟩, ⟨"gneq", "\u2a88", false⟩, ⟨"gneqq", "\u2269", false⟩,
  ⟨"gnsim", "\u22e7", false⟩, ⟨"gopf", "𝕘", false⟩, ⟨"grave", "\x60", false⟩,
  ⟨"gscr", "\u210a", false⟩, ⟨"gsim", "\u2273", false⟩, ⟨"gsime", "\u2a8e", false⟩,
  ⟨"gsiml", "\u2a90", false⟩, ⟨"gt", ">", true⟩, ⟨"gtcc", "\u2aa7", false⟩,
  ⟨"gtcir", "\u2a7a", false⟩, ⟨"gtdot", "\u22d7", false⟩, ⟨"gtlPar", "\u2995", false⟩,
  ⟨"gtquest", "\u2a7c", false⟩, ⟨"gtrapprox", "\u2a86", false⟩, ⟨"gtrarr", "\u2978", false⟩,
  ⟨"gtrdot", "\u22d7", false⟩, ⟨"gtreqless", "\u22db", false⟩, ⟨"gtreqqless", "\u2a8c", false⟩,
  ⟨"gtrless", "\u2277", false⟩, ⟨"gtrsim", "\u2273", false⟩,
  ⟨"gvertneqq", "\u2269\ufe00", false⟩, ⟨"gvnE", "\u2269\ufe00", false⟩,
  ⟨"hArr", "\u21d4", false⟩, ⟨"hairsp", "\u200a", false⟩, ⟨"half", "\xbd", false⟩,
  ⟨"hamilt", "\u210b", false⟩, ⟨"hardcy", "\u044a", false⟩, ⟨"harr", "\u2194", false⟩,
  ⟨"harrcir", "\u2948", false⟩, ⟨"harrw", "\u21ad", false⟩, ⟨"hbar", "\u210f", false⟩,
  ⟨"hcirc", "\u0125", false⟩, ⟨"hearts", "\u2665", false⟩, ⟨"heartsuit", "\u2665", false⟩,
  ⟨"hellip", "\u2026", false⟩, ⟨"hercon", "\u22b9", false⟩, ⟨"hfr", "𝔥", false⟩,
  ⟨"hksearow", "\u2925", false⟩, ⟨"hkswarow", "\u2926", false⟩, ⟨"hoarr", "\u21ff", false⟩,
  ⟨"homtht", "\u223b", false⟩, ⟨"hookleftarrow", "\u21a9", false⟩,
  ⟨"hookrightarrow", "\u21aa", false⟩, ⟨"hopf", "𝕙", false⟩, ⟨"horbar", "\u2015", false⟩,
  ⟨"hscr", "𝒽", false⟩, ⟨"hslash", "\u210f", false⟩, ⟨"hstrok", "\u0127", false⟩,
  ⟨"hybull", "\u2043", false⟩, ⟨"hyphen", "\u2010", false⟩, ⟨"iacute", "\xed", true⟩,
  ⟨"ic", "\u2063", false⟩, ⟨"icirc", "\xee", true⟩, ⟨"icy", "\u0438", false⟩]

/-- The names from `iecy` to `lfisht`. -/
def fromIecy : List NamedReference := [
  ⟨"iecy", "\u0435", false⟩, ⟨"iexcl", "\xa1", true⟩, ⟨"iff", "\u21d4", false⟩,
  ⟨"ifr", "𝔦", false⟩, ⟨"igrave", "\xec", true⟩, ⟨"ii", "\u2148", false⟩,
  ⟨"iiiint", "\u2a0c", false⟩, ⟨"iiint", "\u222d", false⟩, ⟨"iinfin", "\u29dc", false⟩,
  ⟨"iiota", "\u2129", false⟩, ⟨"ijlig", "\u0133", false⟩, ⟨"imacr", "\u012b", false⟩,
  ⟨"image", "\u2111", false⟩, ⟨"imagline", "\u2110", false⟩, ⟨"imagpart", "\u2111", false⟩,
  ⟨"imath", "\u0131", false⟩, ⟨"imof", "\u22b7", false⟩, ⟨"imped", "\u01b5", false⟩,
  ⟨"in", "\u2208", false⟩, ⟨"incare", "\u2105", false⟩, ⟨"infin", "\u221e", false⟩,
  ⟨"infintie", "\u29dd", false⟩, ⟨"inodot", "\u0131", false⟩, ⟨"int", "\u222b", false⟩,
  ⟨"intcal", "\u22ba", false⟩, ⟨"integers", "\u2124", false⟩, ⟨"intercal", "\u22ba", false⟩,
  ⟨"intlarhk", "\u2a17", false⟩, ⟨"intprod", "\u2a3c", false⟩, ⟨"iocy", "\u0451", false⟩,
  ⟨"iogon", "\u012f", false⟩, ⟨"iopf", "𝕚", false⟩, ⟨"iota", "\u03b9", false⟩,
  ⟨"iprod", "\u2a3c", false⟩, ⟨"iquest", "\xbf", true⟩, ⟨"iscr", "𝒾", false⟩,
  ⟨"isin", "\u2208", false⟩, ⟨"isinE", "\u22f9", false⟩, ⟨"isindot", "\u22f5", false⟩,
  ⟨"isins", "\u22f4", false⟩, ⟨"isinsv", "\u22f3", false⟩, ⟨"isinv", "\u2208", false⟩,
  ⟨"it", "\u2062", false⟩, ⟨"itilde", "\u0129", false⟩, ⟨"iukcy", "\u0456", false⟩,
  ⟨"iuml", "\xef", true⟩, ⟨"jcirc", "\u0135", false⟩, ⟨"jcy", "\u0439", false⟩,
  ⟨"jfr", "𝔧", false⟩, ⟨"jmath", "\u0237", false⟩, ⟨"jopf", "𝕛", false⟩, ⟨"jscr", "𝒿", false⟩,
  ⟨"jsercy", "\u0458", false⟩, ⟨"jukcy", "\u0454", false⟩, ⟨"kappa", "\u03ba", false⟩,
  ⟨"kappav", "\u03f0", false⟩, ⟨"kcedil", "\u0137", false⟩, ⟨"kcy", "\u043a", false⟩,
  ⟨"kfr", "𝔨", false⟩, ⟨"kgreen", "\u0138", false⟩, ⟨"khcy", "\u0445", false⟩,
  ⟨"kjcy", "\u045c", false⟩, ⟨"kopf", "𝕜", false⟩, ⟨"kscr", "𝓀", false⟩,
  ⟨"lAarr", "\u21da", false⟩, ⟨"lArr", "\u21d0", false⟩, ⟨"lAtail", "\u291b", false⟩,
  ⟨"lBarr", "\u290e", false⟩, ⟨"lE", "\u2266", false⟩, ⟨"lEg", "\u2a8b", false⟩,
  ⟨"lHar", "\u2962", false⟩, ⟨"lacute", "\u013a", false⟩, ⟨"laemptyv", "\u29b4", false⟩,
  ⟨"lagran", "\u2112", false⟩, ⟨"lambda", "\u03bb", false⟩, ⟨"lang", "\u27e8", false⟩,
  ⟨"langd", "\u2991", false⟩, ⟨"langle", "\u27e8", false⟩, ⟨"lap", "\u2a85", false⟩,
  ⟨"laquo", "\xab", true⟩, ⟨"larr", "\u2190", false⟩, ⟨"larrb", "\u21e4", false⟩,
  ⟨"larrbfs", "\u291f", false⟩, ⟨"larrfs", "\u291d", false⟩, ⟨"larrhk", "\u21a9", false⟩,
  ⟨"larrlp", "\u21ab", false⟩, ⟨"larrpl", "\u2939", false⟩, ⟨"larrsim", "\u2973", false⟩,
  ⟨"larrtl", "\u21a2", false⟩, ⟨"lat", "\u2aab", false⟩, ⟨"latail", "\u2919", false⟩,
  ⟨"late", "\u2aad", false⟩, ⟨"lates", "\u2aad\ufe00", false⟩, ⟨"lbarr", "\u290c", false⟩,
  ⟨"lbbrk", "\u2772", false⟩, ⟨"lbrace", "\x7b", false⟩, ⟨"lbrack", "[", false⟩,
  ⟨"lbrke", "\u298b", false⟩, ⟨"lbrksld", "\u298f", false⟩, ⟨"lbrkslu", "\u298d", false⟩,
  ⟨"lcaron", "\u013e", false⟩, ⟨"lcedil", "\u013c", false⟩, ⟨"lceil", "\u2308", false⟩,
  ⟨"lcub", "\x7b", false⟩, ⟨"lcy", "\u043b", false⟩, ⟨"ldca", "\u2936", false⟩,
  ⟨"ldquo", "\u201c", false⟩, ⟨"ldquor", "\u201e", false⟩, ⟨"ldrdhar", "\u2967", false⟩,
  ⟨"ldrushar", "\u294b", false⟩, ⟨"ldsh", "\u21b2", false⟩, ⟨"le", "\u2264", false⟩,
  ⟨"leftarrow", "\u2190", false⟩, ⟨"leftarrowtail", "\u21a2", false⟩,
  ⟨"leftharpoondown", "\u21bd", false⟩, ⟨"leftharpoonup", "\u21bc", false⟩,
  ⟨"leftleftarrows", "\u21c7", false⟩, ⟨"leftrightarrow", "\u2194", false⟩,
  ⟨"leftrightarrows", "\u21c6", false⟩, ⟨"leftrightharpoons", "\u21cb", false⟩,
  ⟨"leftrightsquigarrow", "\u21ad", false⟩, ⟨"leftthreetimes", "\u22cb", false⟩,
  ⟨"leg", "\u22da", false⟩, ⟨"leq", "\u2264", false⟩, ⟨"leqq", "\u2266", false⟩,
  ⟨"leqslant", "\u2a7d", false⟩, ⟨"les", "\u2a7d", false⟩, ⟨"lescc", "\u2aa8", false⟩,
  ⟨"lesdot", "\u2a7f", false⟩, ⟨"lesdoto", "\u2a81", false⟩, ⟨"lesdotor", "\u2a83", false⟩,
  ⟨"lesg", "\u22da\ufe00", false⟩, ⟨"lesges", "\u2a93", false⟩, ⟨"lessapprox", "\u2a85", false⟩,
  ⟨"lessdot", "\u22d6", false⟩, ⟨"lesseqgtr", "\u22da", false⟩, ⟨"lesseqqgtr", "\u2a8b", false⟩,
  ⟨"lessgtr", "\u2276", false⟩, ⟨"lesssim", "\u2272", false⟩, ⟨"lfisht", "\u297c", false⟩]

/-- The names from `lfloor` to `ncaron`. -/
def fromLfloor : List NamedReference := [
  ⟨"lfloor", "\u230a", false⟩, ⟨"lfr", "𝔩", false⟩, ⟨"lg", "\u2276", false⟩,
  ⟨"lgE", "\u2a91", false⟩, ⟨"lhard", "\u21bd", false⟩, ⟨"lharu", "\u21bc", false⟩,
  ⟨"lharul", "\u296a", false⟩, ⟨"lhblk", "\u2584", false⟩, ⟨"ljcy", "\u0459", false⟩,
  ⟨"ll", "\u226a", false⟩, ⟨"llarr", "\u21c7", false⟩, ⟨"llcorner", "\u231e", false⟩,
  ⟨"llhard", "\u296b", false⟩, ⟨"lltri", "\u25fa", false⟩, ⟨"lmidot", "\u0140", false⟩,
  ⟨"lmoust", "\u23b0", false⟩, ⟨"lmoustache", "\u23b0", false⟩, ⟨"lnE", "\u2268", false⟩,
  ⟨"lnap", "\u2a89", false⟩, ⟨"lnapprox", "\u2a89", false⟩, ⟨"lne", "\u2a87", false⟩,
  ⟨"lneq", "\u2a87", false⟩, ⟨"lneqq", "\u2268", false⟩, ⟨"lnsim", "\u22e6", false⟩,
  ⟨"loang", "\u27ec", false⟩, ⟨"loarr", "\u21fd", false⟩, ⟨"lobrk", "\u27e6", false⟩,
  ⟨"longleftarrow", "\u27f5", false⟩, ⟨"longleftrightarrow", "\u27f7", false⟩,
  ⟨"longmapsto", "\u27fc", false⟩, ⟨"longrightarrow", "\u27f6", false⟩,
  ⟨"looparrowleft", "\u21ab", false⟩, ⟨"looparrowright", "\u21ac", false⟩,
  ⟨"lopar", "\u2985", false⟩, ⟨"lopf", "𝕝", false⟩, ⟨"loplus", "\u2a2d", false⟩,
  ⟨"lotimes", "\u2a34", false⟩, ⟨"lowast", "\u2217", false⟩, ⟨"lowbar", "_", false⟩,
  ⟨"loz", "\u25ca", false⟩, ⟨"lozenge", "\u25ca", false⟩, ⟨"lozf", "\u29eb", false⟩,
  ⟨"lpar", "(", false⟩, ⟨"lparlt", "\u2993", false⟩, ⟨"lrarr", "\u21c6", false⟩,
  ⟨"lrcorner", "\u231f", false⟩, ⟨"lrhar", "\u21cb", false⟩, ⟨"lrhard", "\u296d", false⟩,
  ⟨"lrm", "\u200e", false⟩, ⟨"lrtri", "\u22bf", false⟩, ⟨"lsaquo", "\u2039", false⟩,
  ⟨"lscr", "𝓁", false⟩, ⟨"lsh", "\u21b0", false⟩, ⟨"lsim", "\u2272", false⟩,
  ⟨"lsime", "\u2a8d", false⟩, ⟨"lsimg", "\u2a8f", false⟩, ⟨"lsqb", "[", false⟩,
  ⟨"lsquo", "\u2018", false⟩, ⟨"lsquor", "\u201a", false⟩, ⟨"lstrok", "\u0142", false⟩,
  ⟨"lt", "<", true⟩, ⟨"ltcc", "\u2aa6", false⟩, ⟨"ltcir", "\u2a79", false⟩,
  ⟨"ltdot", "\u22d6", false⟩, ⟨"lthree", "\u22cb", false⟩, ⟨"ltimes", "\u22c9", false⟩,
  ⟨"ltlarr", "\u2976", false⟩, ⟨"ltquest", "\u2a7b", false⟩, ⟨"ltrPar", "\u2996", false⟩,
  ⟨"ltri", "\u25c3", false⟩, ⟨"ltrie", "\u22b4", false⟩, ⟨"ltrif", "\u25c2", false⟩,
  ⟨"lurdshar", "\u294a", false⟩, ⟨"luruhar", "\u2966", false⟩,
  ⟨"lvertneqq", "\u2268\ufe00", false⟩, ⟨"lvnE", "\u2268\ufe00", false⟩,
  ⟨"mDDot", "\u223a", false⟩, ⟨"macr", "\xaf", true⟩, ⟨"male", "\u2642", false⟩,
  ⟨"malt", "\u2720", false⟩, ⟨"maltese", "\u2720", false⟩, ⟨"map", "\u21a6", false⟩,
  ⟨"mapsto", "\u21a6", false⟩, ⟨"mapstodown", "\u21a7", false⟩, ⟨"mapstoleft", "\u21a4", false⟩,
  ⟨"mapstoup", "\u21a5", false⟩, ⟨"marker", "\u25ae", false⟩, ⟨"mcomma", "\u2a29", false⟩,
  ⟨"mcy", "\u043c", false⟩, ⟨"mdash", "\u2014", false⟩, ⟨"measuredangle", "\u2221", false⟩,
  ⟨"mfr", "𝔪", false⟩, ⟨"mho", "\u2127", false⟩, ⟨"micro", "\xb5", true⟩,
  ⟨"mid", "\u2223", false⟩, ⟨"midast", "*", false⟩, ⟨"midcir", "\u2af0", false⟩,
  ⟨"middot", "\xb7", true⟩, ⟨"minus", "\u2212", false⟩, ⟨"minusb", "\u229f", false⟩,
  ⟨"minusd", "\u2238", false⟩, ⟨"minusdu", "\u2a2a", false⟩, ⟨"mlcp", "\u2adb", false⟩,
  ⟨"mldr", "\u2026", false⟩, ⟨"mnplus", "\u2213", false⟩, ⟨"models", "\u22a7", false⟩,
  ⟨"mopf", "𝕞", false⟩, ⟨"mp", "\u2213", false⟩, ⟨"mscr", "𝓂", false⟩,
  ⟨"mstpos", "\u223e", false⟩, ⟨"mu", "\u03bc", false⟩, ⟨"multimap", "\u22b8", false⟩,
  ⟨"mumap", "\u22b8", false⟩, ⟨"nGg", "\u22d9\u0338", false⟩, ⟨"nGt", "\u226b\u20d2", false⟩,
  ⟨"nGtv", "\u226b\u0338", false⟩, ⟨"nLeftarrow", "\u21cd", false⟩,
  ⟨"nLeftrightarrow", "\u21ce", false⟩, ⟨"nLl", "\u22d8\u0338", false⟩,
  ⟨"nLt", "\u226a\u20d2", false⟩, ⟨"nLtv", "\u226a\u0338", false⟩,
  ⟨"nRightarrow", "\u21cf", false⟩, ⟨"nVDash", "\u22af", false⟩, ⟨"nVdash", "\u22ae", false⟩,
  ⟨"nabla", "\u2207", false⟩, ⟨"nacute", "\u0144", false⟩, ⟨"nang", "\u2220\u20d2", false⟩,
  ⟨"nap", "\u2249", false⟩, ⟨"napE", "\u2a70\u0338", false⟩, ⟨"napid", "\u224b\u0338", false⟩,
  ⟨"napos", "\u0149", false⟩, ⟨"napprox", "\u2249", false⟩, ⟨"natur", "\u266e", false⟩,
  ⟨"natural", "\u266e", false⟩, ⟨"naturals", "\u2115", false⟩, ⟨"nbsp", "\xa0", true⟩,
  ⟨"nbump", "\u224e\u0338", false⟩, ⟨"nbumpe", "\u224f\u0338", false⟩, ⟨"ncap", "\u2a43", false⟩,
  ⟨"ncaron", "\u0148", false⟩]

/-- The names from `ncedil` to `oacute`. -/
def fromNcedil : List NamedReference := [
  ⟨"ncedil", "\u0146", false⟩, ⟨"ncong", "\u2247", false⟩, ⟨"ncongdot", "\u2a6d\u0338", false⟩,
  ⟨"ncup", "\u2a42", false⟩, ⟨"ncy", "\u043d", false⟩, ⟨"ndash", "\u2013", false⟩,
  ⟨"ne", "\u2260", false⟩, ⟨"neArr", "\u21d7", false⟩, ⟨"nearhk", "\u2924", false⟩,
  ⟨"nearr", "\u2197", false⟩, ⟨"nearrow", "\u2197", false⟩, ⟨"nedot", "\u2250\u0338", false⟩,
  ⟨"nequiv", "\u2262", false⟩, ⟨"nesear", "\u2928", false⟩, ⟨"nesim", "\u2242\u0338", false⟩,
  ⟨"nexist", "\u2204", false⟩, ⟨"nexists", "\u2204", false⟩, ⟨"nfr", "𝔫", false⟩,
  ⟨"ngE", "\u2267\u0338", false⟩, ⟨"nge", "\u2271", false⟩, ⟨"ngeq", "\u2271", false⟩,
  ⟨"ngeqq", "\u2267\u0338", false⟩, ⟨"ngeqslant", "\u2a7e\u0338", false⟩,
  ⟨"nges", "\u2a7e\u0338", false⟩, ⟨"ngsim", "\u2275", false⟩, ⟨"ngt", "\u226f", false⟩,
  ⟨"ngtr", "\u226f", false⟩, ⟨"nhArr", "\u21ce", false⟩, ⟨"nharr", "\u21ae", false⟩,
  ⟨"nhpar", "\u2af2", false⟩, ⟨"ni", "\u220b", false⟩, ⟨"nis", "\u22fc", false⟩,
  ⟨"nisd", "\u22fa", false⟩, ⟨"niv", "\u220b", false⟩, ⟨"njcy", "\u045a", false⟩,
  ⟨"nlArr", "\u21cd", false⟩, ⟨"nlE", "\u2266\u0338", false⟩, ⟨"nlarr", "\u219a", false⟩,
  ⟨"nldr", "\u2025", false⟩, ⟨"nle", "\u2270", false⟩, ⟨"nleftarrow", "\u219a", false⟩,
  ⟨"nleftrightarrow", "\u21ae", false⟩, ⟨"nleq", "\u2270", false⟩,
  ⟨"nleqq", "\u2266\u0338", false⟩, ⟨"nleqslant", "\u2a7d\u0338", false⟩,
  ⟨"nles", "\u2a7d\u0338", false⟩, ⟨"nless", "\u226e", false⟩, ⟨"nlsim", "\u2274", false⟩,
  ⟨"nlt", "\u226e", false⟩, ⟨"nltri", "\u22ea", false⟩, ⟨"nltrie", "\u22ec", false⟩,
  ⟨"nmid", "\u2224", false⟩, ⟨"nopf", "𝕟", false⟩, ⟨"not", "\xac", true⟩,
  ⟨"notin", "\u2209", false⟩, ⟨"notinE", "\u22f9\u0338", false⟩,
  ⟨"notindot", "\u22f5\u0338", false⟩, ⟨"notinva", "\u2209", false⟩,
  ⟨"notinvb", "\u22f7", false⟩, ⟨"notinvc", "\u22f6", false⟩, ⟨"notni", "\u220c", false⟩,
  ⟨"notniva", "\u220c", false⟩, ⟨"notnivb", "\u22fe", false⟩, ⟨"notnivc", "\u22fd", false⟩,
  ⟨"npar", "\u2226", false⟩, ⟨"nparallel", "\u2226", false⟩, ⟨"nparsl", "\u2afd\u20e5", false⟩,
  ⟨"npart", "\u2202\u0338", false⟩, ⟨"npolint", "\u2a14", false⟩, ⟨"npr", "\u2280", false⟩,
  ⟨"nprcue", "\u22e0", false⟩, ⟨"npre", "\u2aaf\u0338", false⟩, ⟨"nprec", "\u2280", false⟩,
  ⟨"npreceq", "\u2aaf\u0338", false⟩, ⟨"nrArr", "\u21cf", false⟩, ⟨"nrarr", "\u219b", false⟩,
  ⟨"nrarrc", "\u2933\u0338", false⟩, ⟨"nrarrw", "\u219d\u0338", false⟩,
  ⟨"nrightarrow", "\u219b", false⟩, ⟨"nrtri", "\u22eb", false⟩, ⟨"nrtrie", "\u22ed", false⟩,
  ⟨"nsc", "\u2281", false⟩, ⟨"nsccue", "\u22e1", false⟩, ⟨"nsce", "\u2ab0\u0338", false⟩,
  ⟨"nscr", "𝓃", false⟩, ⟨"nshortmid", "\u2224", false⟩, ⟨"nshortparallel", "\u2226", false⟩,
  ⟨"nsim", "\u2241", false⟩, ⟨"nsime", "\u2244", false⟩, ⟨"nsimeq", "\u2244", false⟩,
  ⟨"nsmid", "\u2224", false⟩, ⟨"nspar", "\u2226", false⟩, ⟨"nsqsube", "\u22e2", false⟩,
  ⟨"nsqsupe", "\u22e3", false⟩, ⟨"nsub", "\u2284", false⟩, ⟨"nsubE", "\u2ac5\u0338", false⟩,
  ⟨"nsube", "\u2288", false⟩, ⟨"nsubset", "\u2282\u20d2", false⟩, ⟨"nsubseteq", "\u2288", false⟩,
  ⟨"nsubseteqq", "\u2ac5\u0338", false⟩, ⟨"nsucc", "\u2281", false⟩,
  ⟨"nsucceq", "\u2ab0\u0338", false⟩, ⟨"nsup", "\u2285", false⟩,
  ⟨"nsupE", "\u2ac6\u0338", false⟩, ⟨"nsupe", "\u2289", false⟩,
  ⟨"nsupset", "\u2283\u20d2", false⟩, ⟨"nsupseteq", "\u2289", false⟩,
  ⟨"nsupseteqq", "\u2ac6\u0338", false⟩, ⟨"ntgl", "\u2279", false⟩, ⟨"ntilde", "\xf1", true⟩,
  ⟨"ntlg", "\u2278", false⟩, ⟨"ntriangleleft", "\u22ea", false⟩,
  ⟨"ntrianglelefteq", "\u22ec", false⟩, ⟨"ntriangleright", "\u22eb", false⟩,
  ⟨"ntrianglerighteq", "\u22ed", false⟩, ⟨"nu", "\u03bd", false⟩, ⟨"num", "#", false⟩,
  ⟨"numero", "\u2116", false⟩, ⟨"numsp", "\u2007", false⟩, ⟨"nvDash", "\u22ad", false⟩,
  ⟨"nvHarr", "\u2904", false⟩, ⟨"nvap", "\u224d\u20d2", false⟩, ⟨"nvdash", "\u22ac", false⟩,
  ⟨"nvge", "\u2265\u20d2", false⟩, ⟨"nvgt", ">\u20d2", false⟩, ⟨"nvinfin", "\u29de", false⟩,
  ⟨"nvlArr", "\u2902", false⟩, ⟨"nvle", "\u2264\u20d2", false⟩, ⟨"nvlt", "<\u20d2", false⟩,
  ⟨"nvltrie", "\u22b4\u20d2", false⟩, ⟨"nvrArr", "\u2903", false⟩,
  ⟨"nvrtrie", "\u22b5\u20d2", false⟩, ⟨"nvsim", "\u223c\u20d2", false⟩,
  ⟨"nwArr", "\u21d6", false⟩, ⟨"nwarhk", "\u2923", false⟩, ⟨"nwarr", "\u2196", false⟩,
  ⟨"nwarrow", "\u2196", false⟩, ⟨"nwnear", "\u2927", false⟩, ⟨"oS", "\u24c8", false⟩,
  ⟨"oacute", "\xf3", true⟩]

/-- The names from `oast` to `rangle`. -/
def fromOast : List NamedReference := [
  ⟨"oast", "\u229b", false⟩, ⟨"ocir", "\u229a", false⟩, ⟨"ocirc", "\xf4", true⟩,
  ⟨"ocy", "\u043e", false⟩, ⟨"odash", "\u229d", false⟩, ⟨"odblac", "\u0151", false⟩,
  ⟨"odiv", "\u2a38", false⟩, ⟨"odot", "\u2299", false⟩, ⟨"odsold", "\u29bc", false⟩,
  ⟨"oelig", "\u0153", false⟩, ⟨"ofcir", "\u29bf", false⟩, ⟨"ofr", "𝔬", false⟩,
  ⟨"ogon", "\u02db", false⟩, ⟨"ograve", "\xf2", true⟩, ⟨"ogt", "\u29c1", false⟩,
  ⟨"ohbar", "\u29b5", false⟩, ⟨"ohm", "\u03a9", false⟩, ⟨"oint", "\u222e", false⟩,
  ⟨"olarr", "\u21ba", false⟩, ⟨"olcir", "\u29be", false⟩, ⟨"olcross", "\u29bb", false⟩,
  ⟨"oline", "\u203e", false⟩, ⟨"olt", "\u29c0", false⟩, ⟨"omacr", "\u014d", false⟩,
  ⟨"omega", "\u03c9", false⟩, ⟨"omicron", "\u03bf", false⟩, ⟨"omid", "\u29b6", false⟩,
  ⟨"ominus", "\u2296", false⟩, ⟨"oopf", "𝕠", false⟩, ⟨"opar", "\u29b7", false⟩,
  ⟨"operp", "\u29b9", false⟩, ⟨"oplus", "\u2295", false⟩, ⟨"or", "\u2228", false⟩,
  ⟨"orarr", "\u21bb", false⟩, ⟨"ord", "\u2a5d", false⟩, ⟨"order", "\u2134", false⟩,
  ⟨"orderof", "\u2134", false⟩, ⟨"ordf", "\xaa", true⟩, ⟨"ordm", "\xba", true⟩,
  ⟨"origof", "\u22b6", false⟩, ⟨"oror", "\u2a56", false⟩, ⟨"orslope", "\u2a57", false⟩,
  ⟨"orv", "\u2a5b", false⟩, ⟨"oscr", "\u2134", false⟩, ⟨"oslash", "\xf8", true⟩,
  ⟨"osol", "\u2298", false⟩, ⟨"otilde", "\xf5", true⟩, ⟨"otimes", "\u2297", false⟩,
  ⟨"otimesas", "\u2a36", false⟩, ⟨"ouml", "\xf6", true⟩, ⟨"ovbar", "\u233d", false⟩,
  ⟨"par", "\u2225", false⟩, ⟨"para", "\xb6", true⟩, ⟨"parallel", "\u2225", false⟩,
  ⟨"parsim", "\u2af3", false⟩, ⟨"parsl", "\u2afd", false⟩, ⟨"part", "\u2202", false⟩,
  ⟨"pcy", "\u043f", false⟩, ⟨"percnt", "%", false⟩, ⟨"period", ".", false⟩,
  ⟨"permil", "\u2030", false⟩, ⟨"perp", "\u22a5", false⟩, ⟨"pertenk", "\u2031", false⟩,
  ⟨"pfr", "𝔭", false⟩, ⟨"phi", "\u03c6", false⟩, ⟨"phiv", "\u03d5", false⟩,
  ⟨"phmmat", "\u2133", false⟩, ⟨"phone", "\u260e", false⟩, ⟨"pi", "\u03c0", false⟩,
  ⟨"pitchfork", "\u22d4", false⟩, ⟨"piv", "\u03d6", false⟩, ⟨"planck", "\u210f", false⟩,
  ⟨"planckh", "\u210e", false⟩, ⟨"plankv", "\u210f", false⟩, ⟨"plus", "+", false⟩,
  ⟨"plusacir", "\u2a23", false⟩, ⟨"plusb", "\u229e", false⟩, ⟨"pluscir", "\u2a22", false⟩,
  ⟨"plusdo", "\u2214", false⟩, ⟨"plusdu", "\u2a25", false⟩, ⟨"pluse", "\u2a72", false⟩,
  ⟨"plusmn", "\xb1", true⟩, ⟨"plussim", "\u2a26", false⟩, ⟨"plustwo", "\u2a27", false⟩,
  ⟨"pm", "\xb1", false⟩, ⟨"pointint", "\u2a15", false⟩, ⟨"popf", "𝕡", false⟩,
  ⟨"pound", "\xa3", true⟩, ⟨"pr", "\u227a", false⟩, ⟨"prE", "\u2ab3", false⟩,
  ⟨"prap", "\u2ab7", false⟩, ⟨"prcue", "\u227c", false⟩, ⟨"pre", "\u2aaf", false⟩,
  ⟨"prec", "\u227a", false⟩, ⟨"precapprox", "\u2ab7", false⟩, ⟨"preccurlyeq", "\u227c", false⟩,
  ⟨"preceq", "\u2aaf", false⟩, ⟨"precnapprox", "\u2ab9", false⟩, ⟨"precneqq", "\u2ab5", false⟩,
  ⟨"precnsim", "\u22e8", false⟩, ⟨"precsim", "\u227e", false⟩, ⟨"prime", "\u2032", false⟩,
  ⟨"primes", "\u2119", false⟩, ⟨"prnE", "\u2ab5", false⟩, ⟨"prnap", "\u2ab9", false⟩,
  ⟨"prnsim", "\u22e8", false⟩, ⟨"prod", "\u220f", false⟩, ⟨"profalar", "\u232e", false⟩,
  ⟨"profline", "\u2312", false⟩, ⟨"profsurf", "\u2313", false⟩, ⟨"prop", "\u221d", false⟩,
  ⟨"propto", "\u221d", false⟩, ⟨"prsim", "\u227e", false⟩, ⟨"prurel", "\u22b0", false⟩,
  ⟨"pscr", "𝓅", false⟩, ⟨"psi", "\u03c8", false⟩, ⟨"puncsp", "\u2008", false⟩,
  ⟨"qfr", "𝔮", false⟩, ⟨"qint", "\u2a0c", false⟩, ⟨"qopf", "𝕢", false⟩,
  ⟨"qprime", "\u2057", false⟩, ⟨"qscr", "𝓆", false⟩, ⟨"quaternions", "\u210d", false⟩,
  ⟨"quatint", "\u2a16", false⟩, ⟨"quest", "?", false⟩, ⟨"questeq", "\u225f", false⟩,
  ⟨"quot", "\"", true⟩, ⟨"rAarr", "\u21db", false⟩, ⟨"rArr", "\u21d2", false⟩,
  ⟨"rAtail", "\u291c", false⟩, ⟨"rBarr", "\u290f", false⟩, ⟨"rHar", "\u2964", false⟩,
  ⟨"race", "\u223d\u0331", false⟩, ⟨"racute", "\u0155", false⟩, ⟨"radic", "\u221a", false⟩,
  ⟨"raemptyv", "\u29b3", false⟩, ⟨"rang", "\u27e9", false⟩, ⟨"rangd", "\u2992", false⟩,
  ⟨"range", "\u29a5", false⟩, ⟨"rangle", "\u27e9", false⟩]

/-- The names from `raquo` to `simrarr`. -/
def fromRaquo : List NamedReference := [
  ⟨"raquo", "\xbb", true⟩, ⟨"rarr", "\u2192", false⟩, ⟨"rarrap", "\u2975", false⟩,
  ⟨"rarrb", "\u21e5", false⟩, ⟨"rarrbfs", "\u2920", false⟩, ⟨"rarrc", "\u2933", false⟩,
  ⟨"rarrfs", "\u291e", false⟩, ⟨"rarrhk", "\u21aa", false⟩, ⟨"rarrlp", "\u21ac", false⟩,
  ⟨"rarrpl", "\u2945", false⟩, ⟨"rarrsim", "\u2974", false⟩, ⟨"rarrtl", "\u21a3", false⟩,
  ⟨"rarrw", "\u219d", false⟩, ⟨"ratail", "\u291a", false⟩, ⟨"ratio", "\u2236", false⟩,
  ⟨"rationals", "\u211a", false⟩, ⟨"rbarr", "\u290d", false⟩, ⟨"rbbrk", "\u2773", false⟩,
  ⟨"rbrace", "\x7d", false⟩, ⟨"rbrack", "]", false⟩, ⟨"rbrke", "\u298c", false⟩,
  ⟨"rbrksld", "\u298e", false⟩, ⟨"rbrkslu", "\u2990", false⟩, ⟨"rcaron", "\u0159", false⟩,
  ⟨"rcedil", "\u0157", false⟩, ⟨"rceil", "\u2309", false⟩, ⟨"rcub", "\x7d", false⟩,
  ⟨"rcy", "\u0440", false⟩, ⟨"rdca", "\u2937", false⟩, ⟨"rdldhar", "\u2969", false⟩,
  ⟨"rdquo", "\u201d", false⟩, ⟨"rdquor", "\u201d", false⟩, ⟨"rdsh", "\u21b3", false⟩,
  ⟨"real", "\u211c", false⟩, ⟨"realine", "\u211b", false⟩, ⟨"realpart", "\u211c", false⟩,
  ⟨"reals", "\u211d", false⟩, ⟨"rect", "\u25ad", false⟩, ⟨"reg", "\xae", true⟩,
  ⟨"rfisht", "\u297d", false⟩, ⟨"rfloor", "\u230b", false⟩, ⟨"rfr", "𝔯", false⟩,
  ⟨"rhard", "\u21c1", false⟩, ⟨"rharu", "\u21c0", false⟩, ⟨"rharul", "\u296c", false⟩,
  ⟨"rho", "\u03c1", false⟩, ⟨"rhov", "\u03f1", false⟩, ⟨"rightarrow", "\u2192", false⟩,
  ⟨"rightarrowtail", "\u21a3", false⟩, ⟨"rightharpoondown", "\u21c1", false⟩,
  ⟨"rightharpoonup", "\u21c0", false⟩, ⟨"rightleftarrows", "\u21c4", false⟩,
  ⟨"rightleftharpoons", "\u21cc", false⟩, ⟨"rightrightarrows", "\u21c9", false⟩,
  ⟨"rightsquigarrow", "\u219d", false⟩, ⟨"rightthreetimes", "\u22cc", false⟩,
  ⟨"ring", "\u02da", false⟩, ⟨"risingdotseq", "\u2253", false⟩, ⟨"rlarr", "\u21c4", false⟩,
  ⟨"rlhar", "\u21cc", false⟩, ⟨"rlm", "\u200f", false⟩, ⟨"rmoust", "\u23b1", false⟩,
  ⟨"rmoustache", "\u23b1", false⟩, ⟨"rnmid", "\u2aee", false⟩, ⟨"roang", "\u27ed", false⟩,
  ⟨"roarr", "\u21fe", false⟩, ⟨"robrk", "\u27e7", false⟩, ⟨"ropar", "\u2986", false⟩,
  ⟨"ropf", "𝕣", false⟩, ⟨"roplus", "\u2a2e", false⟩, ⟨"rotimes", "\u2a35", false⟩,
  ⟨"rpar", ")", false⟩, ⟨"rpargt", "\u2994", false⟩, ⟨"rppolint", "\u2a12", false⟩,
  ⟨"rrarr", "\u21c9", false⟩, ⟨"rsaquo", "\u203a", false⟩, ⟨"rscr", "𝓇", false⟩,
  ⟨"rsh", "\u21b1", false⟩, ⟨"rsqb", "]", false⟩, ⟨"rsquo", "\u2019", false⟩,
  ⟨"rsquor", "\u2019", false⟩, ⟨"rthree", "\u22cc", false⟩, ⟨"rtimes", "\u22ca", false⟩,
  ⟨"rtri", "\u25b9", false⟩, ⟨"rtrie", "\u22b5", false⟩, ⟨"rtrif", "\u25b8", false⟩,
  ⟨"rtriltri", "\u29ce", false⟩, ⟨"ruluhar", "\u2968", false⟩, ⟨"rx", "\u211e", false⟩,
  ⟨"sacute", "\u015b", false⟩, ⟨"sbquo", "\u201a", false⟩, ⟨"sc", "\u227b", false⟩,
  ⟨"scE", "\u2ab4", false⟩, ⟨"scap", "\u2ab8", false⟩, ⟨"scaron", "\u0161", false⟩,
  ⟨"sccue", "\u227d", false⟩, ⟨"sce", "\u2ab0", false⟩, ⟨"scedil", "\u015f", false⟩,
  ⟨"scirc", "\u015d", false⟩, ⟨"scnE", "\u2ab6", false⟩, ⟨"scnap", "\u2aba", false⟩,
  ⟨"scnsim", "\u22e9", false⟩, ⟨"scpolint", "\u2a13", false⟩, ⟨"scsim", "\u227f", false⟩,
  ⟨"scy", "\u0441", false⟩, ⟨"sdot", "\u22c5", false⟩, ⟨"sdotb", "\u22a1", false⟩,
  ⟨"sdote", "\u2a66", false⟩, ⟨"seArr", "\u21d8", false⟩, ⟨"searhk", "\u2925", false⟩,
  ⟨"searr", "\u2198", false⟩, ⟨"searrow", "\u2198", false⟩, ⟨"sect", "\xa7", true⟩,
  ⟨"semi", ";", false⟩, ⟨"seswar", "\u2929", false⟩, ⟨"setminus", "\u2216", false⟩,
  ⟨"setmn", "\u2216", false⟩, ⟨"sext", "\u2736", false⟩, ⟨"sfr", "𝔰", false⟩,
  ⟨"sfrown", "\u2322", false⟩, ⟨"sharp", "\u266f", false⟩, ⟨"shchcy", "\u0449", false⟩,
  ⟨"shcy", "\u0448", false⟩, ⟨"shortmid", "\u2223", false⟩, ⟨"shortparallel", "\u2225", false⟩,
  ⟨"shy", "\xad", true⟩, ⟨"sigma", "\u03c3", false⟩, ⟨"sigmaf", "\u03c2", false⟩,
  ⟨"sigmav", "\u03c2", false⟩, ⟨"sim", "\u223c", false⟩, ⟨"simdot", "\u2a6a", false⟩,
  ⟨"sime", "\u2243", false⟩, ⟨"simeq", "\u2243", false⟩, ⟨"simg", "\u2a9e", false⟩,
  ⟨"simgE", "\u2aa0", false⟩, ⟨"siml", "\u2a9d", false⟩, ⟨"simlE", "\u2a9f", false⟩,
  ⟨"simne", "\u2246", false⟩, ⟨"simplus", "\u2a24", false⟩, ⟨"simrarr", "\u2972", false⟩]

/-- The names from `slarr` to `trianglelefteq`. -/
def fromSlarr : List NamedReference := [
  ⟨"slarr", "\u2190", false⟩, ⟨"smallsetminus", "\u2216", false⟩, ⟨"smashp", "\u2a33", false⟩,
  ⟨"smeparsl", "\u29e4", false⟩, ⟨"smid", "\u2223", false⟩, ⟨"smile", "\u2323", false⟩,
  ⟨"smt", "\u2aaa", false⟩, ⟨"smte", "\u2aac", false⟩, ⟨"smtes", "\u2aac\ufe00", false⟩,
  ⟨"softcy", "\u044c", false⟩, ⟨"sol", "/", false⟩, ⟨"solb", "\u29c4", false⟩,
  ⟨"solbar", "\u233f", false⟩, ⟨"sopf", "𝕤", false⟩, ⟨"spades", "\u2660", false⟩,
  ⟨"spadesuit", "\u2660", false⟩, ⟨"spar", "\u2225", false⟩, ⟨"sqcap", "\u2293", false⟩,
  ⟨"sqcaps", "\u2293\ufe00", false⟩, ⟨"sqcup", "\u2294", false⟩,
  ⟨"sqcups", "\u2294\ufe00", false⟩, ⟨"sqsub", "\u228f", false⟩, ⟨"sqsube", "\u2291", false⟩,
  ⟨"sqsubset", "\u228f", false⟩, ⟨"sqsubseteq", "\u2291", false⟩, ⟨"sqsup", "\u2290", false⟩,
  ⟨"sqsupe", "\u2292", false⟩, ⟨"sqsupset", "\u2290", false⟩, ⟨"sqsupseteq", "\u2292", false⟩,
  ⟨"squ", "\u25a1", false⟩, ⟨"square", "\u25a1", false⟩, ⟨"squarf", "\u25aa", false⟩,
  ⟨"squf", "\u25aa", false⟩, ⟨"srarr", "\u2192", false⟩, ⟨"sscr", "𝓈", false⟩,
  ⟨"ssetmn", "\u2216", false⟩, ⟨"ssmile", "\u2323", false⟩, ⟨"sstarf", "\u22c6", false⟩,
  ⟨"star", "\u2606", false⟩, ⟨"starf", "\u2605", false⟩, ⟨"straightepsilon", "\u03f5", false⟩,
  ⟨"straightphi", "\u03d5", false⟩, ⟨"strns", "\xaf", false⟩, ⟨"sub", "\u2282", false⟩,
  ⟨"subE", "\u2ac5", false⟩, ⟨"subdot", "\u2abd", false⟩, ⟨"sube", "\u2286", false⟩,
  ⟨"subedot", "\u2ac3", false⟩, ⟨"submult", "\u2ac1", false⟩, ⟨"subnE", "\u2acb", false⟩,
  ⟨"subne", "\u228a", false⟩, ⟨"subplus", "\u2abf", false⟩, ⟨"subrarr", "\u2979", false⟩,
  ⟨"subset", "\u2282", false⟩, ⟨"subseteq", "\u2286", false⟩, ⟨"subseteqq", "\u2ac5", false⟩,
  ⟨"subsetneq", "\u228a", false⟩, ⟨"subsetneqq", "\u2acb", false⟩, ⟨"subsim", "\u2ac7", false⟩,
  ⟨"subsub", "\u2ad5", false⟩, ⟨"subsup", "\u2ad3", false⟩, ⟨"succ", "\u227b", false⟩,
  ⟨"succapprox", "\u2ab8", false⟩, ⟨"succcurlyeq", "\u227d", false⟩, ⟨"succeq", "\u2ab0", false⟩,
  ⟨"succnapprox", "\u2aba", false⟩, ⟨"succneqq", "\u2ab6", false⟩, ⟨"succnsim", "\u22e9", false⟩,
  ⟨"succsim", "\u227f", false⟩, ⟨"sum", "\u2211", false⟩, ⟨"sung", "\u266a", false⟩,
  ⟨"sup", "\u2283", false⟩, ⟨"sup1", "\xb9", true⟩, ⟨"sup2", "\xb2", true⟩,
  ⟨"sup3", "\xb3", true⟩, ⟨"supE", "\u2ac6", false⟩, ⟨"supdot", "\u2abe", false⟩,
  ⟨"supdsub", "\u2ad8", false⟩, ⟨"supe", "\u2287", false⟩, ⟨"supedot", "\u2ac4", false⟩,
  ⟨"suphsol", "\u27c9", false⟩, ⟨"suphsub", "\u2ad7", false⟩, ⟨"suplarr", "\u297b", false⟩,
  ⟨"supmult", "\u2ac2", false⟩, ⟨"supnE", "\u2acc", false⟩, ⟨"supne", "\u228b", false⟩,
  ⟨"supplus", "\u2ac0", false⟩, ⟨"supset", "\u2283", false⟩, ⟨"supseteq", "\u2287", false⟩,
  ⟨"supseteqq", "\u2ac6", false⟩, ⟨"supsetneq", "\u228b", false⟩,
  ⟨"supsetneqq", "\u2acc", false⟩, ⟨"supsim", "\u2ac8", false⟩, ⟨"supsub", "\u2ad4", false⟩,
  ⟨"supsup", "\u2ad6", false⟩, ⟨"swArr", "\u21d9", false⟩, ⟨"swarhk", "\u2926", false⟩,
  ⟨"swarr", "\u2199", false⟩, ⟨"swarrow", "\u2199", false⟩, ⟨"swnwar", "\u292a", false⟩,
  ⟨"szlig", "\xdf", true⟩, ⟨"target", "\u2316", false⟩, ⟨"tau", "\u03c4", false⟩,
  ⟨"tbrk", "\u23b4", false⟩, ⟨"tcaron", "\u0165", false⟩, ⟨"tcedil", "\u0163", false⟩,
  ⟨"tcy", "\u0442", false⟩, ⟨"tdot", "\u20db", false⟩, ⟨"telrec", "\u2315", false⟩,
  ⟨"tfr", "𝔱", false⟩, ⟨"there4", "\u2234", false⟩, ⟨"therefore", "\u2234", false⟩,
  ⟨"theta", "\u03b8", false⟩, ⟨"thetasym", "\u03d1", false⟩, ⟨"thetav", "\u03d1", false⟩,
  ⟨"thickapprox", "\u2248", false⟩, ⟨"thicksim", "\u223c", false⟩, ⟨"thinsp", "\u2009", false⟩,
  ⟨"thkap", "\u2248", false⟩, ⟨"thksim", "\u223c", false⟩, ⟨"thorn", "\xfe", true⟩,
  ⟨"tilde", "\u02dc", false⟩, ⟨"times", "\xd7", true⟩, ⟨"timesb", "\u22a0", false⟩,
  ⟨"timesbar", "\u2a31", false⟩, ⟨"timesd", "\u2a30", false⟩, ⟨"tint", "\u222d", false⟩,
  ⟨"toea", "\u2928", false⟩, ⟨"top", "\u22a4", false⟩, ⟨"topbot", "\u2336", false⟩,
  ⟨"topcir", "\u2af1", false⟩, ⟨"topf", "𝕥", false⟩, ⟨"topfork", "\u2ada", false⟩,
  ⟨"tosa", "\u2929", false⟩, ⟨"tprime", "\u2034", false⟩, ⟨"trade", "\u2122", false⟩,
  ⟨"triangle", "\u25b5", false⟩, ⟨"triangledown", "\u25bf", false⟩,
  ⟨"triangleleft", "\u25c3", false⟩, ⟨"trianglelefteq", "\u22b4", false⟩]

/-- The names from `triangleq` to `xvee`. -/
def fromTriangleq : List NamedReference := [
  ⟨"triangleq", "\u225c", false⟩, ⟨"triangleright", "\u25b9", false⟩,
  ⟨"trianglerighteq", "\u22b5", false⟩, ⟨"tridot", "\u25ec", false⟩, ⟨"trie", "\u225c", false⟩,
  ⟨"triminus", "\u2a3a", false⟩, ⟨"triplus", "\u2a39", false⟩, ⟨"trisb", "\u29cd", false⟩,
  ⟨"tritime", "\u2a3b", false⟩, ⟨"trpezium", "\u23e2", false⟩, ⟨"tscr", "𝓉", false⟩,
  ⟨"tscy", "\u0446", false⟩, ⟨"tshcy", "\u045b", false⟩, ⟨"tstrok", "\u0167", false⟩,
  ⟨"twixt", "\u226c", false⟩, ⟨"twoheadleftarrow", "\u219e", false⟩,
  ⟨"twoheadrightarrow", "\u21a0", false⟩, ⟨"uArr", "\u21d1", false⟩, ⟨"uHar", "\u2963", false⟩,
  ⟨"uacute", "\xfa", true⟩, ⟨"uarr", "\u2191", false⟩, ⟨"ubrcy", "\u045e", false⟩,
  ⟨"ubreve", "\u016d", false⟩, ⟨"ucirc", "\xfb", true⟩, ⟨"ucy", "\u0443", false⟩,
  ⟨"udarr", "\u21c5", false⟩, ⟨"udblac", "\u0171", false⟩, ⟨"udhar", "\u296e", false⟩,
  ⟨"ufisht", "\u297e", false⟩, ⟨"ufr", "𝔲", false⟩, ⟨"ugrave", "\xf9", true⟩,
  ⟨"uharl", "\u21bf", false⟩, ⟨"uharr", "\u21be", false⟩, ⟨"uhblk", "\u2580", false⟩,
  ⟨"ulcorn", "\u231c", false⟩, ⟨"ulcorner", "\u231c", false⟩, ⟨"ulcrop", "\u230f", false⟩,
  ⟨"ultri", "\u25f8", false⟩, ⟨"umacr", "\u016b", false⟩, ⟨"uml", "\xa8", true⟩,
  ⟨"uogon", "\u0173", false⟩, ⟨"uopf", "𝕦", false⟩, ⟨"uparrow", "\u2191", false⟩,
  ⟨"updownarrow", "\u2195", false⟩, ⟨"upharpoonleft", "\u21bf", false⟩,
  ⟨"upharpoonright", "\u21be", false⟩, ⟨"uplus", "\u228e", false⟩, ⟨"upsi", "\u03c5", false⟩,
  ⟨"upsih", "\u03d2", false⟩, ⟨"upsilon", "\u03c5", false⟩, ⟨"upuparrows", "\u21c8", false⟩,
  ⟨"urcorn", "\u231d", false⟩, ⟨"urcorner", "\u231d", false⟩, ⟨"urcrop", "\u230e", false⟩,
  ⟨"uring", "\u016f", false⟩, ⟨"urtri", "\u25f9", false⟩, ⟨"uscr", "𝓊", false⟩,
  ⟨"utdot", "\u22f0", false⟩, ⟨"utilde", "\u0169", false⟩, ⟨"utri", "\u25b5", false⟩,
  ⟨"utrif", "\u25b4", false⟩, ⟨"uuarr", "\u21c8", false⟩, ⟨"uuml", "\xfc", true⟩,
  ⟨"uwangle", "\u29a7", false⟩, ⟨"vArr", "\u21d5", false⟩, ⟨"vBar", "\u2ae8", false⟩,
  ⟨"vBarv", "\u2ae9", false⟩, ⟨"vDash", "\u22a8", false⟩, ⟨"vangrt", "\u299c", false⟩,
  ⟨"varepsilon", "\u03f5", false⟩, ⟨"varkappa", "\u03f0", false⟩,
  ⟨"varnothing", "\u2205", false⟩, ⟨"varphi", "\u03d5", false⟩, ⟨"varpi", "\u03d6", false⟩,
  ⟨"varpropto", "\u221d", false⟩, ⟨"varr", "\u2195", false⟩, ⟨"varrho", "\u03f1", false⟩,
  ⟨"varsigma", "\u03c2", false⟩, ⟨"varsubsetneq", "\u228a\ufe00", false⟩,
  ⟨"varsubsetneqq", "\u2acb\ufe00", false⟩, ⟨"varsupsetneq", "\u228b\ufe00", false⟩,
  ⟨"varsupsetneqq", "\u2acc\ufe00", false⟩, ⟨"vartheta", "\u03d1", false⟩,
  ⟨"vartriangleleft", "\u22b2", false⟩, ⟨"vartriangleright", "\u22b3", false⟩,
  ⟨"vcy", "\u0432", false⟩, ⟨"vdash", "\u22a2", false⟩, ⟨"vee", "\u2228", false⟩,
  ⟨"veebar", "\u22bb", false⟩, ⟨"veeeq", "\u225a", false⟩, ⟨"vellip", "\u22ee", false⟩,
  ⟨"verbar", "|", false⟩, ⟨"vert", "|", false⟩, ⟨"vfr", "𝔳", false⟩, ⟨"vltri", "\u22b2", false⟩,
  ⟨"vnsub", "\u2282\u20d2", false⟩, ⟨"vnsup", "\u2283\u20d2", false⟩, ⟨"vopf", "𝕧", false⟩,
  ⟨"vprop", "\u221d", false⟩, ⟨"vrtri", "\u22b3", false⟩, ⟨"vscr", "𝓋", false⟩,
  ⟨"vsubnE", "\u2acb\ufe00", false⟩, ⟨"vsubne", "\u228a\ufe00", false⟩,
  ⟨"vsupnE", "\u2acc\ufe00", false⟩, ⟨"vsupne", "\u228b\ufe00", false⟩,
  ⟨"vzigzag", "\u299a", false⟩, ⟨"wcirc", "\u0175", false⟩, ⟨"wedbar", "\u2a5f", false⟩,
  ⟨"wedge", "\u2227", false⟩, ⟨"wedgeq", "\u2259", false⟩, ⟨"weierp", "\u2118", false⟩,
  ⟨"wfr", "𝔴", false⟩, ⟨"wopf", "𝕨", false⟩, ⟨"wp", "\u2118", false⟩, ⟨"wr", "\u2240", false⟩,
  ⟨"wreath", "\u2240", false⟩, ⟨"wscr", "𝓌", false⟩, ⟨"xcap", "\u22c2", false⟩,
  ⟨"xcirc", "\u25ef", false⟩, ⟨"xcup", "\u22c3", false⟩, ⟨"xdtri", "\u25bd", false⟩,
  ⟨"xfr", "𝔵", false⟩, ⟨"xhArr", "\u27fa", false⟩, ⟨"xharr", "\u27f7", false⟩,
  ⟨"xi", "\u03be", false⟩, ⟨"xlArr", "\u27f8", false⟩, ⟨"xlarr", "\u27f5", false⟩,
  ⟨"xmap", "\u27fc", false⟩, ⟨"xnis", "\u22fb", false⟩, ⟨"xodot", "\u2a00", false⟩,
  ⟨"xopf", "𝕩", false⟩, ⟨"xoplus", "\u2a01", false⟩, ⟨"xotime", "\u2a02", false⟩,
  ⟨"xrArr", "\u27f9", false⟩, ⟨"xrarr", "\u27f6", false⟩, ⟨"xscr", "𝓍", false⟩,
  ⟨"xsqcup", "\u2a06", false⟩, ⟨"xuplus", "\u2a04", false⟩, ⟨"xutri", "\u25b3", false⟩,
  ⟨"xvee", "\u22c1", false⟩]

/-- The names from `xwedge` to `zwnj`. -/
def fromXwedge : List NamedReference := [
  ⟨"xwedge", "\u22c0", false⟩, ⟨"yacute", "\xfd", true⟩, ⟨"yacy", "\u044f", false⟩,
  ⟨"ycirc", "\u0177", false⟩, ⟨"ycy", "\u044b", false⟩, ⟨"yen", "\xa5", true⟩,
  ⟨"yfr", "𝔶", false⟩, ⟨"yicy", "\u0457", false⟩, ⟨"yopf", "𝕪", false⟩, ⟨"yscr", "𝓎", false⟩,
  ⟨"yucy", "\u044e", false⟩, ⟨"yuml", "\xff", true⟩, ⟨"zacute", "\u017a", false⟩,
  ⟨"zcaron", "\u017e", false⟩, ⟨"zcy", "\u0437", false⟩, ⟨"zdot", "\u017c", false⟩,
  ⟨"zeetrf", "\u2128", false⟩, ⟨"zeta", "\u03b6", false⟩, ⟨"zfr", "𝔷", false⟩,
  ⟨"zhcy", "\u0436", false⟩, ⟨"zigrarr", "\u21dd", false⟩, ⟨"zopf", "𝕫", false⟩,
  ⟨"zscr", "𝓏", false⟩, ⟨"zwj", "\u200d", false⟩, ⟨"zwnj", "\u200c", false⟩]

/-- All names. -/
def all : List NamedReference :=
  fromAElig ++
  fromEta ++
  fromLscr ++
  fromReverseElement ++
  fromVerticalBar ++
  fromBlacktriangleright ++
  fromCudarrl ++
  fromErDot ++
  fromIecy ++
  fromLfloor ++
  fromNcedil ++
  fromOast ++
  fromRaquo ++
  fromSlarr ++
  fromTriangleq ++
  fromXwedge

end NamedReference

end TemplateSyntax
