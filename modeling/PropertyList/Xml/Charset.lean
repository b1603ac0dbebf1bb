/-
  PropertyList.Xml.Charset

  The character sets that an XML declaration can name besides UTF-8, UTF-16,
  ISO-8859-1 and US-ASCII.  A set that XML can be read in gives one character to
  each byte, and agrees with ASCII in all characters that mean something in
  markup; the others are known by name, but cannot be used.
-/

namespace PropertyList.Xml

/-- What the bytes from 128 on stand for, in eight rows of sixteen with the replacement
    character where they stand for nothing, and which of the lower bytes stand for nothing. -/
structure CharTable where
  upper : List String
  missing : List Nat

/-- A character set with its names.  Aliases may be written with dots for underscores. -/
structure Charset where
  names : List String
  aliases : List String
  table : Option CharTable

/-- The upper half of a set that ends with ASCII. -/
def noUpper : List String := []

/-- The character sets. -/
def charsets : List Charset := [
  { names := ["ascii", "iso2022_jp", "iso2022_jp_1", "iso2022_jp_2", "iso2022_jp_2004",
    "iso2022_jp_3", "iso2022_jp_ext", "utf_8", "utf_8_sig"]
    aliases := ["646", "ansi_x3.4_1968", "ansi_x3.4_1986", "ansi_x3_4_1968", "cp367", "cp65001",
    "csascii", "csiso2022jp", "ibm367", "iso2022jp", "iso2022jp_1", "iso2022jp_2",
    "iso2022jp_2004", "iso2022jp_3", "iso2022jp_ext", "iso646_us", "iso_2022_jp",
    "iso_2022_jp_1", "iso_2022_jp_2", "iso_2022_jp_2004", "iso_2022_jp_3",
    "iso_2022_jp_ext", "iso_646.irv_1991", "iso_ir_6", "u8", "us", "us_ascii", "utf",
    "utf8", "utf8_ucs2", "utf8_ucs4"]
    table := some ⟨noUpper, []⟩ },
  { names := ["charmap", "iso8859_1", "latin_1", "raw_unicode_escape", "unicode_escape"]
    aliases := ["8859", "cp819", "csisolatin1", "ibm819", "iso8859", "iso8859_1", "iso_8859_1",
    "iso_8859_1_1987", "iso_ir_100", "l1", "latin", "latin1"]
    table := some ⟨[
      "\u0080\u0081\u0082\u0083\u0084\u0085\u0086\u0087\u0088\u0089\u008A\u008B\u008C\u008D\u008E\u008F",
      "\u0090\u0091\u0092\u0093\u0094\u0095\u0096\u0097\u0098\u0099\u009A\u009B\u009C\u009D\u009E\u009F",
      "\u00A0¡¢£¤¥¦§¨©ª«¬\u00AD®¯", "°±²³´µ¶·¸¹º»¼½¾¿", "ÀÁÂÃÄÅÆÇÈÉÊËÌÍÎÏ",
      "ÐÑÒÓÔÕÖ×ØÙÚÛÜÝÞß", "àáâãäåæçèéêëìíîï", "ðñòóôõö÷øùúûüýþÿ"], []⟩ },
  { names := ["cp1006"]
    aliases := []
    table := some ⟨[
      "\u0080\u0081\u0082\u0083\u0084\u0085\u0086\u0087\u0088\u0089\u008A\u008B\u008C\u008D\u008E\u008F",
      "\u0090\u0091\u0092\u0093\u0094\u0095\u0096\u0097\u0098\u0099\u009A\u009B\u009C\u009D\u009E\u009F",
      "\u00A0\u06F0\u06F1\u06F2\u06F3\u06F4\u06F5\u06F6\u06F7\u06F8\u06F9\u060C\u061B\u00AD\u061F\uFE81",
      "\uFE8D\uFE8E\uFE8E\uFE8F\uFE91\uFB56\uFB58\uFE93\uFE95\uFE97\uFB66\uFB68\uFE99\uFE9B\uFE9D\uFE9F",
      "\uFB7A\uFB7C\uFEA1\uFEA3\uFEA5\uFEA7\uFEA9\uFB84\uFEAB\uFEAD\uFB8C\uFEAF\uFB8A\uFEB1\uFEB3\uFEB5",
      "\uFEB7\uFEB9\uFEBB\uFEBD\uFEBF\uFEC1\uFEC5\uFEC9\uFECA\uFECB\uFECC\uFECD\uFECE\uFECF\uFED0\uFED1",
      "\uFED3\uFED5\uFED7\uFED9\uFEDB\uFB92\uFB94\uFEDD\uFEDF\uFEE0\uFEE1\uFEE3\uFB9E\uFEE5\uFEE7\uFE85",
      "\uFEED\uFBA6\uFBA8\uFBA9\uFBAA\uFE80\uFE89\uFE8A\uFE8B\uFEF1\uFEF2\uFEF3\uFBB0\uFBAE\uFE7C\uFE7D"], []⟩ },
  { names := ["cp1125"]
    aliases := ["1125", "cp866u", "ibm1125", "ruscii"]
    table := some ⟨[
      "АБВГДЕЖЗИЙКЛМНОП", "РСТУФХЦЧШЩЪЫЬЭЮЯ", "абвгдежзийклмноп", "░▒▓│┤╡╢╖╕╣║╗╝╜╛┐",
      "└┴┬├─┼╞╟╚╔╩╦╠═╬╧", "╨╤╥╙╘╒╓╫╪┘┌█▄▌▐▀", "рстуфхцчшщъыьэюя", "ЁёҐґЄєІіЇї·√№¤■\u00A0"], []⟩ },
  { names := ["cp1250"]
    aliases := ["1250", "windows_1250"]
    table := some ⟨[
      "€\uFFFD‚\uFFFD„…†‡\uFFFD‰Š‹ŚŤŽŹ", "\uFFFD‘’“”•–—\uFFFD™š›śťžź",
      "\u00A0ˇ˘Ł¤Ą¦§¨©Ş«¬\u00AD®Ż", "°±˛ł´µ¶·¸ąş»Ľ˝ľż", "ŔÁÂĂÄĹĆÇČÉĘËĚÍÎĎ",
      "ĐŃŇÓÔŐÖ×ŘŮÚŰÜÝŢß", "ŕáâăäĺćçčéęëěíîď", "đńňóôőö÷řůúűüýţ˙"], []⟩ },
  { names := ["cp1251"]
    aliases := ["1251", "windows_1251"]
    table := some ⟨[
      "ЂЃ‚ѓ„…†‡€‰Љ‹ЊЌЋЏ", "ђ‘’“”•–—\uFFFD™љ›њќћџ", "\u00A0ЎўЈ¤Ґ¦§Ё©Є«¬\u00AD®Ї",
      "°±Ііґµ¶·ё№є»јЅѕї", "АБВГДЕЖЗИЙКЛМНОП", "РСТУФХЦЧШЩЪЫЬЭЮЯ", "абвгдежзийклмноп",
      "рстуфхцчшщъыьэюя"], []⟩ },
  { names := ["cp1252"]
    aliases := ["1252", "windows_1252"]
    table := some ⟨[
      "€\uFFFD‚ƒ„…†‡ˆ‰Š‹Œ\uFFFDŽ\uFFFD", "\uFFFD‘’“”•–—˜™š›œ\uFFFDžŸ",
      "\u00A0¡¢£¤¥¦§¨©ª«¬\u00AD®¯", "°±²³´µ¶·¸¹º»¼½¾¿", "ÀÁÂÃÄÅÆÇÈÉÊËÌÍÎÏ",
      "ÐÑÒÓÔÕÖ×ØÙÚÛÜÝÞß", "àáâãäåæçèéêëìíîï", "ðñòóôõö÷øùúûüýþÿ"], []⟩ },
  { names := ["cp1253"]
    aliases := ["1253", "windows_1253"]
    table := some ⟨[
      "€\uFFFD‚ƒ„…†‡\uFFFD‰\uFFFD‹\uFFFD\uFFFD\uFFFD\uFFFD",
      "\uFFFD‘’“”•–—\uFFFD™\uFFFD›\uFFFD\uFFFD\uFFFD\uFFFD",
      "\u00A0΅Ά£¤¥¦§¨©\uFFFD«¬\u00AD®―", "°±²³΄µ¶·ΈΉΊ»Ό½ΎΏ", "ΐΑΒΓΔΕΖΗΘΙΚΛΜΝΞΟ",
      "ΠΡ\uFFFDΣΤΥΦΧΨΩΪΫάέήί", "ΰαβγδεζηθικλμνξο", "πρςστυφχψωϊϋόύώ\uFFFD"], []⟩ },
  { names := ["cp1254"]
    aliases := ["1254", "windows_1254"]
    table := some ⟨[
      "€\uFFFD‚ƒ„…†‡ˆ‰Š‹Œ\uFFFD\uFFFD\uFFFD", "\uFFFD‘’“”•–—˜™š›œ\uFFFD\uFFFDŸ",
      "\u00A0¡¢£¤¥¦§¨©ª«¬\u00AD®¯", "°±²³´µ¶·¸¹º»¼½¾¿", "ÀÁÂÃÄÅÆÇÈÉÊËÌÍÎÏ",
      "ĞÑÒÓÔÕÖ×ØÙÚÛÜİŞß", "àáâãäåæçèéêëìíîï", "ğñòóôõö÷øùúûüışÿ"], []⟩ },
  { names := ["cp1255"]
    aliases := ["1255", "windows_1255"]
    table := some ⟨[
      "€\uFFFD‚ƒ„…†‡ˆ‰\uFFFD‹\uFFFD\uFFFD\uFFFD\uFFFD",
      "\uFFFD‘’“”•–—˜™\uFFFD›\uFFFD\uFFFD\uFFFD\uFFFD", "\u00A0¡¢£₪¥¦§¨©×«¬\u00AD®¯",
      "°±²³´µ¶·¸¹÷»¼½¾¿",
      "\u05B0\u05B1\u05B2\u05B3\u05B4\u05B5\u05B6\u05B7\u05B8\u05B9\uFFFD\u05BB\u05BC\u05BD\u05BE\u05BF",
      "\u05C0\u05C1\u05C2\u05C3\u05F0\u05F1\u05F2\u05F3\u05F4\uFFFD\uFFFD\uFFFD\uFFFD\uFFFD\uFFFD\uFFFD",
      "\u05D0\u05D1\u05D2\u05D3\u05D4\u05D5\u05D6\u05D7\u05D8\u05D9\u05DA\u05DB\u05DC\u05DD\u05DE\u05DF",
      "\u05E0\u05E1\u05E2\u05E3\u05E4\u05E5\u05E6\u05E7\u05E8\u05E9\u05EA\uFFFD\uFFFD\u200E\u200F\uFFFD"], []⟩ },
  { names := ["cp1256"]
    aliases := ["1256", "windows_1256"]
    table := some ⟨[
      "€\u067E‚ƒ„…†‡ˆ‰\u0679‹Œ\u0686\u0698\u0688",
      "\u06AF‘’“”•–—\u06A9™\u0691›œ\u200C\u200D\u06BA",
      "\u00A0\u060C¢£¤¥¦§¨©\u06BE«¬\u00AD®¯", "°±²³´µ¶·¸¹\u061B»¼½¾\u061F",
      "\u06C1\u0621\u0622\u0623\u0624\u0625\u0626\u0627\u0628\u0629\u062A\u062B\u062C\u062D\u062E\u062F",
      "\u0630\u0631\u0632\u0633\u0634\u0635\u0636×\u0637\u0638\u0639\u063A\u0640\u0641\u0642\u0643",
      "à\u0644â\u0645\u0646\u0647\u0648çèéêë\u0649\u064Aîï",
      "\u064B\u064C\u064D\u064Eô\u064F\u0650÷\u0651ù\u0652ûü\u200E\u200F\u06D2"], []⟩ },
  { names := ["cp1257"]
    aliases := ["1257", "windows_1257"]
    table := some ⟨[
      "€\uFFFD‚\uFFFD„…†‡\uFFFD‰\uFFFD‹\uFFFD¨ˇ¸",
      "\uFFFD‘’“”•–—\uFFFD™\uFFFD›\uFFFD¯˛\uFFFD", "\u00A0\uFFFD¢£¤\uFFFD¦§Ø©Ŗ«¬\u00AD®Æ",
      "°±²³´µ¶·ø¹ŗ»¼½¾æ", "ĄĮĀĆÄÅĘĒČÉŹĖĢĶĪĻ", "ŠŃŅÓŌÕÖ×ŲŁŚŪÜŻŽß", "ąįāćäåęēčéźėģķīļ",
      "šńņóōõö÷ųłśūüżž˙"], []⟩ },
  { names := ["cp1258"]
    aliases := ["1258", "windows_1258"]
    table := some ⟨[
      "€\uFFFD‚ƒ„…†‡ˆ‰\uFFFD‹Œ\uFFFD\uFFFD\uFFFD", "\uFFFD‘’“”•–—˜™\uFFFD›œ\uFFFD\uFFFDŸ",
      "\u00A0¡¢£¤¥¦§¨©ª«¬\u00AD®¯", "°±²³´µ¶·¸¹º»¼½¾¿", "ÀÁÂĂÄÅÆÇÈÉÊË\u0300ÍÎÏ",
      "ĐÑ\u0309ÓÔƠÖ×ØÙÚÛÜƯ\u0303ß", "àáâăäåæçèéêë\u0301íîï", "đñ\u0323óôơö÷øùúûüư₫ÿ"], []⟩ },
  { names := ["cp437"]
    aliases := ["437", "cspc8codepage437", "ibm437"]
    table := some ⟨[
      "ÇüéâäàåçêëèïîìÄÅ", "ÉæÆôöòûùÿÖÜ¢£¥₧ƒ", "áíóúñÑªº¿⌐¬½¼¡«»", "░▒▓│┤╡╢╖╕╣║╗╝╜╛┐",
      "└┴┬├─┼╞╟╚╔╩╦╠═╬╧", "╨╤╥╙╘╒╓╫╪┘┌█▄▌▐▀", "αßΓπΣσµτΦΘΩδ∞φε∩", "≡±≥≤⌠⌡÷≈°∙·√ⁿ²■\u00A0"], []⟩ },
  { names := ["cp720"]
    aliases := []
    table := some ⟨[
      "\u0080\u0081éâ\u0084à\u0086çêëèïî\u008D\u008E\u008F",
      "\u0090\u0651\u0652ô¤\u0640ûù\u0621\u0622\u0623\u0624£\u0625\u0626\u0627",
      "\u0628\u0629\u062A\u062B\u062C\u062D\u062E\u062F\u0630\u0631\u0632\u0633\u0634\u0635«»",
      "░▒▓│┤╡╢╖╕╣║╗╝╜╛┐", "└┴┬├─┼╞╟╚╔╩╦╠═╬╧", "╨╤╥╙╘╒╓╫╪┘┌█▄▌▐▀",
      "\u0636\u0637\u0638\u0639\u063A\u0641µ\u0642\u0643\u0644\u0645\u0646\u0647\u0648\u0649\u064A",
      "≡\u064B\u064C\u064D\u064E\u064F\u0650≈°∙·√ⁿ²■\u00A0"], []⟩ },
  { names := ["cp737"]
    aliases := []
    table := some ⟨[
      "ΑΒΓΔΕΖΗΘΙΚΛΜΝΞΟΠ", "ΡΣΤΥΦΧΨΩαβγδεζηθ", "ικλμνξοπρσςτυφχψ", "░▒▓│┤╡╢╖╕╣║╗╝╜╛┐",
      "└┴┬├─┼╞╟╚╔╩╦╠═╬╧", "╨╤╥╙╘╒╓╫╪┘┌█▄▌▐▀", "ωάέήϊίόύϋώΆΈΉΊΌΎ", "Ώ±≥≤ΪΫ÷≈°∙·√ⁿ²■\u00A0"], []⟩ },
  { names := ["cp775"]
    aliases := ["775", "cspc775baltic", "ibm775"]
    table := some ⟨[
      "ĆüéāäģåćłēŖŗīŹÄÅ", "ÉæÆōöĢ¢ŚśÖÜø£Ø×¤", "ĀĪóŻżź”¦©®¬½¼Ł«»", "░▒▓│┤ĄČĘĖ╣║╗╝ĮŠ┐",
      "└┴┬├─┼ŲŪ╚╔╩╦╠═╬Ž", "ąčęėįšųūž┘┌█▄▌▐▀", "ÓßŌŃõÕµńĶķĻļņĒŅ’",
      "\u00AD±“¾¶§÷„°∙·¹³²■\u00A0"], []⟩ },
  { names := ["cp850"]
    aliases := ["850", "cspc850multilingual", "ibm850"]
    table := some ⟨[
      "ÇüéâäàåçêëèïîìÄÅ", "ÉæÆôöòûùÿÖÜø£Ø×ƒ", "áíóúñÑªº¿®¬½¼¡«»", "░▒▓│┤ÁÂÀ©╣║╗╝¢¥┐",
      "└┴┬├─┼ãÃ╚╔╩╦╠═╬¤", "ðÐÊËÈıÍÎÏ┘┌█▄¦Ì▀", "ÓßÔÒõÕµþÞÚÛÙýÝ¯´",
      "\u00AD±‗¾¶§÷¸°¨·¹³²■\u00A0"], []⟩ },
  { names := ["cp852"]
    aliases := ["852", "cspcp852", "ibm852"]
    table := some ⟨[
      "ÇüéâäůćçłëŐőîŹÄĆ", "ÉĹĺôöĽľŚśÖÜŤťŁ×č", "áíóúĄąŽžĘę¬źČş«»", "░▒▓│┤ÁÂĚŞ╣║╗╝Żż┐",
      "└┴┬├─┼Ăă╚╔╩╦╠═╬¤", "đĐĎËďŇÍÎě┘┌█▄ŢŮ▀", "ÓßÔŃńňŠšŔÚŕŰýÝţ´",
      "\u00AD˝˛ˇ˘§÷¸°¨˙űŘř■\u00A0"], []⟩ },
  { names := ["cp855"]
    aliases := ["855", "csibm855", "ibm855"]
    table := some ⟨[
      "ђЂѓЃёЁєЄѕЅіІїЇјЈ", "љЉњЊћЋќЌўЎџЏюЮъЪ", "аАбБцЦдДеЕфФгГ«»", "░▒▓│┤хХиИ╣║╗╝йЙ┐",
      "└┴┬├─┼кК╚╔╩╦╠═╬¤", "лЛмМнНоОп┘┌█▄Пя▀", "ЯрРсСтТуУжЖвВьЬ№",
      "\u00ADыЫзЗшШэЭщЩчЧ§■\u00A0"], []⟩ },
  { names := ["cp856"]
    aliases := []
    table := some ⟨[
      "\u05D0\u05D1\u05D2\u05D3\u05D4\u05D5\u05D6\u05D7\u05D8\u05D9\u05DA\u05DB\u05DC\u05DD\u05DE\u05DF",
      "\u05E0\u05E1\u05E2\u05E3\u05E4\u05E5\u05E6\u05E7\u05E8\u05E9\u05EA\uFFFD£\uFFFD×\uFFFD",
      "\uFFFD\uFFFD\uFFFD\uFFFD\uFFFD\uFFFD\uFFFD\uFFFD\uFFFD®¬½¼\uFFFD«»",
      "░▒▓│┤\uFFFD\uFFFD\uFFFD©╣║╗╝¢¥┐", "└┴┬├─┼\uFFFD\uFFFD╚╔╩╦╠═╬¤",
      "\uFFFD\uFFFD\uFFFD\uFFFD\uFFFD\uFFFD\uFFFD\uFFFD\uFFFD┘┌█▄¦\uFFFD▀",
      "\uFFFD\uFFFD\uFFFD\uFFFD\uFFFD\uFFFDµ\uFFFD\uFFFD\uFFFD\uFFFD\uFFFD\uFFFD\uFFFD¯´",
      "\u00AD±‗¾¶§÷¸°¨·¹³²■\u00A0"], []⟩ },
  { names := ["cp857"]
    aliases := ["857", "csibm857", "ibm857"]
    table := some ⟨[
      "ÇüéâäàåçêëèïîıÄÅ", "ÉæÆôöòûùİÖÜø£ØŞş", "áíóúñÑĞğ¿®¬½¼¡«»", "░▒▓│┤ÁÂÀ©╣║╗╝¢¥┐",
      "└┴┬├─┼ãÃ╚╔╩╦╠═╬¤", "ºªÊËÈ\uFFFDÍÎÏ┘┌█▄¦Ì▀", "ÓßÔÒõÕµ\uFFFD×ÚÛÙìÿ¯´",
      "\u00AD±\uFFFD¾¶§÷¸°¨·¹³²■\u00A0"], []⟩ },
  { names := ["cp858"]
    aliases := ["858", "csibm858", "ibm858"]
    table := some ⟨[
      "ÇüéâäàåçêëèïîìÄÅ", "ÉæÆôöòûùÿÖÜø£Ø×ƒ", "áíóúñÑªº¿®¬½¼¡«»", "░▒▓│┤ÁÂÀ©╣║╗╝¢¥┐",
      "└┴┬├─┼ãÃ╚╔╩╦╠═╬¤", "ðÐÊËÈ€ÍÎÏ┘┌█▄¦Ì▀", "ÓßÔÒõÕµþÞÚÛÙýÝ¯´",
      "\u00AD±‗¾¶§÷¸°¨·¹³²■\u00A0"], []⟩ },
  { names := ["cp860"]
    aliases := ["860", "csibm860", "ibm860"]
    table := some ⟨[
      "ÇüéâãàÁçêÊèÍÔìÃÂ", "ÉÀÈôõòÚùÌÕÜ¢£Ù₧Ó", "áíóúñÑªº¿Ò¬½¼¡«»", "░▒▓│┤╡╢╖╕╣║╗╝╜╛┐",
      "└┴┬├─┼╞╟╚╔╩╦╠═╬╧", "╨╤╥╙╘╒╓╫╪┘┌█▄▌▐▀", "αßΓπΣσµτΦΘΩδ∞φε∩", "≡±≥≤⌠⌡÷≈°∙·√ⁿ²■\u00A0"], []⟩ },
  { names := ["cp861"]
    aliases := ["861", "cp_is", "csibm861", "ibm861"]
    table := some ⟨[
      "ÇüéâäàåçêëèÐðÞÄÅ", "ÉæÆôöþûÝýÖÜø£Ø₧ƒ", "áíóúÁÍÓÚ¿⌐¬½¼¡«»", "░▒▓│┤╡╢╖╕╣║╗╝╜╛┐",
      "└┴┬├─┼╞╟╚╔╩╦╠═╬╧", "╨╤╥╙╘╒╓╫╪┘┌█▄▌▐▀", "αßΓπΣσµτΦΘΩδ∞φε∩", "≡±≥≤⌠⌡÷≈°∙·√ⁿ²■\u00A0"], []⟩ },
  { names := ["cp862"]
    aliases := ["862", "cspc862latinhebrew", "ibm862"]
    table := some ⟨[
      "\u05D0\u05D1\u05D2\u05D3\u05D4\u05D5\u05D6\u05D7\u05D8\u05D9\u05DA\u05DB\u05DC\u05DD\u05DE\u05DF",
      "\u05E0\u05E1\u05E2\u05E3\u05E4\u05E5\u05E6\u05E7\u05E8\u05E9\u05EA¢£¥₧ƒ",
      "áíóúñÑªº¿⌐¬½¼¡«»", "░▒▓│┤╡╢╖╕╣║╗╝╜╛┐", "└┴┬├─┼╞╟╚╔╩╦╠═╬╧", "╨╤╥╙╘╒╓╫╪┘┌█▄▌▐▀",
      "αßΓπΣσµτΦΘΩδ∞φε∩", "≡±≥≤⌠⌡÷≈°∙·√ⁿ²■\u00A0"], []⟩ },
  { names := ["cp863"]
    aliases := ["863", "csibm863", "ibm863"]
    table := some ⟨[
      "ÇüéâÂà¶çêëèïî‗À§", "ÉÈÊôËÏûù¤ÔÜ¢£ÙÛƒ", "¦´óú¨¸³¯Î⌐¬½¼¾«»", "░▒▓│┤╡╢╖╕╣║╗╝╜╛┐",
      "└┴┬├─┼╞╟╚╔╩╦╠═╬╧", "╨╤╥╙╘╒╓╫╪┘┌█▄▌▐▀", "αßΓπΣσµτΦΘΩδ∞φε∩", "≡±≥≤⌠⌡÷≈°∙·√ⁿ²■\u00A0"], []⟩ },
  { names := ["cp865"]
    aliases := ["865", "csibm865", "ibm865"]
    table := some ⟨[
      "ÇüéâäàåçêëèïîìÄÅ", "ÉæÆôöòûùÿÖÜø£Ø₧ƒ", "áíóúñÑªº¿⌐¬½¼¡«¤", "░▒▓│┤╡╢╖╕╣║╗╝╜╛┐",
      "└┴┬├─┼╞╟╚╔╩╦╠═╬╧", "╨╤╥╙╘╒╓╫╪┘┌█▄▌▐▀", "αßΓπΣσµτΦΘΩδ∞φε∩", "≡±≥≤⌠⌡÷≈°∙·√ⁿ²■\u00A0"], []⟩ },
  { names := ["cp866"]
    aliases := ["866", "csibm866", "ibm866"]
    table := some ⟨[
      "АБВГДЕЖЗИЙКЛМНОП", "РСТУФХЦЧШЩЪЫЬЭЮЯ", "абвгдежзийклмноп", "░▒▓│┤╡╢╖╕╣║╗╝╜╛┐",
      "└┴┬├─┼╞╟╚╔╩╦╠═╬╧", "╨╤╥╙╘╒╓╫╪┘┌█▄▌▐▀", "рстуфхцчшщъыьэюя", "ЁёЄєЇїЎў°∙·√№¤■\u00A0"], []⟩ },
  { names := ["cp869"]
    aliases := ["869", "cp_gr", "csibm869", "ibm869"]
    table := some ⟨[
      "\uFFFD\uFFFD\uFFFD\uFFFD\uFFFD\uFFFDΆ\uFFFD·¬¦‘’Έ―Ή", "ΊΪΌ\uFFFD\uFFFDΎΫ©Ώ²³ά£έήί",
      "ϊΐόύΑΒΓΔΕΖΗ½ΘΙ«»", "░▒▓│┤ΚΛΜΝ╣║╗╝ΞΟ┐", "└┴┬├─┼ΠΡ╚╔╩╦╠═╬Σ", "ΤΥΦΧΨΩαβγ┘┌█▄δε▀",
      "ζηθικλμνξοπρσςτ΄", "\u00AD±υφχ§ψ΅°¨ωϋΰώ■\u00A0"], []⟩ },
  { names := ["cp874"]
    aliases := []
    table := some ⟨[
      "€\uFFFD\uFFFD\uFFFD\uFFFD…\uFFFD\uFFFD\uFFFD\uFFFD\uFFFD\uFFFD\uFFFD\uFFFD\uFFFD\uFFFD",
      "\uFFFD‘’“”•–—\uFFFD\uFFFD\uFFFD\uFFFD\uFFFD\uFFFD\uFFFD\uFFFD",
      "\u00A0กขฃคฅฆงจฉชซฌญฎฏ", "ฐฑฒณดตถทธนบปผฝพฟ", "ภมยรฤลฦวศษสหฬอฮฯ",
      "\u0E30\u0E31\u0E32\u0E33\u0E34\u0E35\u0E36\u0E37\u0E38\u0E39\u0E3A\uFFFD\uFFFD\uFFFD\uFFFD\u0E3F",
      "\u0E40\u0E41\u0E42\u0E43\u0E44\u0E45\u0E46\u0E47\u0E48\u0E49\u0E4A\u0E4B\u0E4C\u0E4D\u0E4E๏",
      "๐๑๒๓๔๕๖๗๘๙๚๛\uFFFD\uFFFD\uFFFD\uFFFD"], []⟩ },
  { names := ["hp_roman8"]
    aliases := ["cp1051", "csHPRoman8", "ibm1051", "r8", "roman8"]
    table := some ⟨[
      "\u0080\u0081\u0082\u0083\u0084\u0085\u0086\u0087\u0088\u0089\u008A\u008B\u008C\u008D\u008E\u008F",
      "\u0090\u0091\u0092\u0093\u0094\u0095\u0096\u0097\u0098\u0099\u009A\u009B\u009C\u009D\u009E\u009F",
      "\u00A0ÀÂÈÊËÎÏ´ˋˆ¨˜ÙÛ₤", "¯Ýý°ÇçÑñ¡¿¤£¥§ƒ¢", "âêôûáéóúàèòùäëöü", "ÅîØÆåíøæÄìÖÜÉïßÔ",
      "ÁÃãÐðÍÌÓÒÕõŠšÚŸÿ", "Þþ·µ¶¾—¼½ªº«■»±\uFFFD"], []⟩ },
  { names := ["hz"]
    aliases := ["hz_gb", "hz_gb_2312", "hzgb"]
    table := some ⟨noUpper, [0x7E]⟩ },
  { names := ["iso8859_10"]
    aliases := ["csisolatin6", "iso_8859_10", "iso_8859_10_1992", "iso_ir_157", "l6", "latin6"]
    table := some ⟨[
      "\u0080\u0081\u0082\u0083\u0084\u0085\u0086\u0087\u0088\u0089\u008A\u008B\u008C\u008D\u008E\u008F",
      "\u0090\u0091\u0092\u0093\u0094\u0095\u0096\u0097\u0098\u0099\u009A\u009B\u009C\u009D\u009E\u009F",
      "\u00A0ĄĒĢĪĨĶ§ĻĐŠŦŽ\u00ADŪŊ", "°ąēģīĩķ·ļđšŧž―ūŋ", "ĀÁÂÃÄÅÆĮČÉĘËĖÍÎÏ",
      "ÐŅŌÓÔÕÖŨØŲÚÛÜÝÞß", "āáâãäåæįčéęëėíîï", "ðņōóôõöũøųúûüýþĸ"], []⟩ },
  { names := ["iso8859_11"]
    aliases := ["iso_8859_11", "iso_8859_11_2001", "thai"]
    table := some ⟨[
      "\u0080\u0081\u0082\u0083\u0084\u0085\u0086\u0087\u0088\u0089\u008A\u008B\u008C\u008D\u008E\u008F",
      "\u0090\u0091\u0092\u0093\u0094\u0095\u0096\u0097\u0098\u0099\u009A\u009B\u009C\u009D\u009E\u009F",
      "\u00A0กขฃคฅฆงจฉชซฌญฎฏ", "ฐฑฒณดตถทธนบปผฝพฟ", "ภมยรฤลฦวศษสหฬอฮฯ",
      "\u0E30\u0E31\u0E32\u0E33\u0E34\u0E35\u0E36\u0E37\u0E38\u0E39\u0E3A\uFFFD\uFFFD\uFFFD\uFFFD\u0E3F",
      "\u0E40\u0E41\u0E42\u0E43\u0E44\u0E45\u0E46\u0E47\u0E48\u0E49\u0E4A\u0E4B\u0E4C\u0E4D\u0E4E๏",
      "๐๑๒๓๔๕๖๗๘๙๚๛\uFFFD\uFFFD\uFFFD\uFFFD"], []⟩ },
  { names := ["iso8859_13"]
    aliases := ["iso_8859_13", "l7", "latin7"]
    table := some ⟨[
      "\u0080\u0081\u0082\u0083\u0084\u0085\u0086\u0087\u0088\u0089\u008A\u008B\u008C\u008D\u008E\u008F",
      "\u0090\u0091\u0092\u0093\u0094\u0095\u0096\u0097\u0098\u0099\u009A\u009B\u009C\u009D\u009E\u009F",
      "\u00A0”¢£¤„¦§Ø©Ŗ«¬\u00AD®Æ", "°±²³“µ¶·ø¹ŗ»¼½¾æ", "ĄĮĀĆÄÅĘĒČÉŹĖĢĶĪĻ",
      "ŠŃŅÓŌÕÖ×ŲŁŚŪÜŻŽß", "ąįāćäåęēčéźėģķīļ", "šńņóōõö÷ųłśūüżž’"], []⟩ },
  { names := ["iso8859_14"]
    aliases := ["iso_8859_14", "iso_8859_14_1998", "iso_celtic", "iso_ir_199", "l8", "latin8"]
    table := some ⟨[
      "\u0080\u0081\u0082\u0083\u0084\u0085\u0086\u0087\u0088\u0089\u008A\u008B\u008C\u008D\u008E\u008F",
      "\u0090\u0091\u0092\u0093\u0094\u0095\u0096\u0097\u0098\u0099\u009A\u009B\u009C\u009D\u009E\u009F",
      "\u00A0Ḃḃ£ĊċḊ§Ẁ©ẂḋỲ\u00AD®Ÿ", "ḞḟĠġṀṁ¶ṖẁṗẃṠỳẄẅṡ", "ÀÁÂÃÄÅÆÇÈÉÊËÌÍÎÏ",
      "ŴÑÒÓÔÕÖṪØÙÚÛÜÝŶß", "àáâãäåæçèéêëìíîï", "ŵñòóôõöṫøùúûüýŷÿ"], []⟩ },
  { names := ["iso8859_15"]
    aliases := ["iso_8859_15", "l9", "latin9"]
    table := some ⟨[
      "\u0080\u0081\u0082\u0083\u0084\u0085\u0086\u0087\u0088\u0089\u008A\u008B\u008C\u008D\u008E\u008F",
      "\u0090\u0091\u0092\u0093\u0094\u0095\u0096\u0097\u0098\u0099\u009A\u009B\u009C\u009D\u009E\u009F",
      "\u00A0¡¢£€¥Š§š©ª«¬\u00AD®¯", "°±²³Žµ¶·ž¹º»ŒœŸ¿", "ÀÁÂÃÄÅÆÇÈÉÊËÌÍÎÏ",
      "ÐÑÒÓÔÕÖ×ØÙÚÛÜÝÞß", "àáâãäåæçèéêëìíîï", "ðñòóôõö÷øùúûüýþÿ"], []⟩ },
  { names := ["iso8859_16"]
    aliases := ["iso_8859_16", "iso_8859_16_2001", "iso_ir_226", "l10", "latin10"]
    table := some ⟨[
      "\u0080\u0081\u0082\u0083\u0084\u0085\u0086\u0087\u0088\u0089\u008A\u008B\u008C\u008D\u008E\u008F",
      "\u0090\u0091\u0092\u0093\u0094\u0095\u0096\u0097\u0098\u0099\u009A\u009B\u009C\u009D\u009E\u009F",
      "\u00A0ĄąŁ€„Š§š©Ș«Ź\u00ADźŻ", "°±ČłŽ”¶·žčș»ŒœŸż", "ÀÁÂĂÄĆÆÇÈÉÊËÌÍÎÏ",
      "ĐŃÒÓÔŐÖŚŰÙÚÛÜĘȚß", "àáâăäćæçèéêëìíîï", "đńòóôőöśűùúûüęțÿ"], []⟩ },
  { names := ["iso8859_2"]
    aliases := ["csisolatin2", "iso_8859_2", "iso_8859_2_1987", "iso_ir_101", "l2", "latin2"]
    table := some ⟨[
      "\u0080\u0081\u0082\u0083\u0084\u0085\u0086\u0087\u0088\u0089\u008A\u008B\u008C\u008D\u008E\u008F",
      "\u0090\u0091\u0092\u0093\u0094\u0095\u0096\u0097\u0098\u0099\u009A\u009B\u009C\u009D\u009E\u009F",
      "\u00A0Ą˘Ł¤ĽŚ§¨ŠŞŤŹ\u00ADŽŻ", "°ą˛ł´ľśˇ¸šşťź˝žż", "ŔÁÂĂÄĹĆÇČÉĘËĚÍÎĎ",
      "ĐŃŇÓÔŐÖ×ŘŮÚŰÜÝŢß", "ŕáâăäĺćçčéęëěíîď", "đńňóôőö÷řůúűüýţ˙"], []⟩ },
  { names := ["iso8859_3"]
    aliases := ["csisolatin3", "iso_8859_3", "iso_8859_3_1988", "iso_ir_109", "l3", "latin3"]
    table := some ⟨[
      "\u0080\u0081\u0082\u0083\u0084\u0085\u0086\u0087\u0088\u0089\u008A\u008B\u008C\u008D\u008E\u008F",
      "\u0090\u0091\u0092\u0093\u0094\u0095\u0096\u0097\u0098\u0099\u009A\u009B\u009C\u009D\u009E\u009F",
      "\u00A0Ħ˘£¤\uFFFDĤ§¨İŞĞĴ\u00AD\uFFFDŻ", "°ħ²³´µĥ·¸ışğĵ½\uFFFDż",
      "ÀÁÂ\uFFFDÄĊĈÇÈÉÊËÌÍÎÏ", "\uFFFDÑÒÓÔĠÖ×ĜÙÚÛÜŬŜß", "àáâ\uFFFDäċĉçèéêëìíîï",
      "\uFFFDñòóôġö÷ĝùúûüŭŝ˙"], []⟩ },
  { names := ["iso8859_4"]
    aliases := ["csisolatin4", "iso_8859_4", "iso_8859_4_1988", "iso_ir_110", "l4", "latin4"]
    table := some ⟨[
      "\u0080\u0081\u0082\u0083\u0084\u0085\u0086\u0087\u0088\u0089\u008A\u008B\u008C\u008D\u008E\u008F",
      "\u0090\u0091\u0092\u0093\u0094\u0095\u0096\u0097\u0098\u0099\u009A\u009B\u009C\u009D\u009E\u009F",
      "\u00A0ĄĸŖ¤ĨĻ§¨ŠĒĢŦ\u00ADŽ¯", "°ą˛ŗ´ĩļˇ¸šēģŧŊžŋ", "ĀÁÂÃÄÅÆĮČÉĘËĖÍÎĪ",
      "ĐŅŌĶÔÕÖ×ØŲÚÛÜŨŪß", "āáâãäåæįčéęëėíîī", "đņōķôõö÷øųúûüũū˙"], []⟩ },
  { names := ["iso8859_5"]
    aliases := ["csisolatincyrillic", "cyrillic", "iso_8859_5", "iso_8859_5_1988", "iso_ir_144"]
    table := some ⟨[
      "\u0080\u0081\u0082\u0083\u0084\u0085\u0086\u0087\u0088\u0089\u008A\u008B\u008C\u008D\u008E\u008F",
      "\u0090\u0091\u0092\u0093\u0094\u0095\u0096\u0097\u0098\u0099\u009A\u009B\u009C\u009D\u009E\u009F",
      "\u00A0ЁЂЃЄЅІЇЈЉЊЋЌ\u00ADЎЏ", "АБВГДЕЖЗИЙКЛМНОП", "РСТУФХЦЧШЩЪЫЬЭЮЯ",
      "абвгдежзийклмноп", "рстуфхцчшщъыьэюя", "№ёђѓєѕіїјљњћќ§ўџ"], []⟩ },
  { names := ["iso8859_6"]
    aliases := ["arabic", "asmo_708", "csisolatinarabic", "ecma_114", "iso_8859_6",
    "iso_8859_6_1987", "iso_ir_127"]
    table := some ⟨[
      "\u0080\u0081\u0082\u0083\u0084\u0085\u0086\u0087\u0088\u0089\u008A\u008B\u008C\u008D\u008E\u008F",
      "\u0090\u0091\u0092\u0093\u0094\u0095\u0096\u0097\u0098\u0099\u009A\u009B\u009C\u009D\u009E\u009F",
      "\u00A0\uFFFD\uFFFD\uFFFD¤\uFFFD\uFFFD\uFFFD\uFFFD\uFFFD\uFFFD\uFFFD\u060C\u00AD\uFFFD\uFFFD",
      "\uFFFD\uFFFD\uFFFD\uFFFD\uFFFD\uFFFD\uFFFD\uFFFD\uFFFD\uFFFD\uFFFD\u061B\uFFFD\uFFFD\uFFFD\u061F",
      "\uFFFD\u0621\u0622\u0623\u0624\u0625\u0626\u0627\u0628\u0629\u062A\u062B\u062C\u062D\u062E\u062F",
      "\u0630\u0631\u0632\u0633\u0634\u0635\u0636\u0637\u0638\u0639\u063A\uFFFD\uFFFD\uFFFD\uFFFD\uFFFD",
      "\u0640\u0641\u0642\u0643\u0644\u0645\u0646\u0647\u0648\u0649\u064A\u064B\u064C\u064D\u064E\u064F",
      "\u0650\u0651\u0652\uFFFD\uFFFD\uFFFD\uFFFD\uFFFD\uFFFD\uFFFD\uFFFD\uFFFD\uFFFD\uFFFD\uFFFD\uFFFD"], []⟩ },
  { names := ["iso8859_7"]
    aliases := ["csisolatingreek", "ecma_118", "elot_928", "greek", "greek8", "iso_8859_7",
    "iso_8859_7_1987", "iso_ir_126"]
    table := some ⟨[
      "\u0080\u0081\u0082\u0083\u0084\u0085\u0086\u0087\u0088\u0089\u008A\u008B\u008C\u008D\u008E\u008F",
      "\u0090\u0091\u0092\u0093\u0094\u0095\u0096\u0097\u0098\u0099\u009A\u009B\u009C\u009D\u009E\u009F",
      "\u00A0‘’£€₯¦§¨©ͺ«¬\u00AD\uFFFD―", "°±²³΄΅Ά·ΈΉΊ»Ό½ΎΏ", "ΐΑΒΓΔΕΖΗΘΙΚΛΜΝΞΟ",
      "ΠΡ\uFFFDΣΤΥΦΧΨΩΪΫάέήί", "ΰαβγδεζηθικλμνξο", "πρςστυφχψωϊϋόύώ\uFFFD"], []⟩ },
  { names := ["iso8859_8"]
    aliases := ["csisolatinhebrew", "hebrew", "iso_8859_8", "iso_8859_8_1988", "iso_ir_138"]
    table := some ⟨[
      "\u0080\u0081\u0082\u0083\u0084\u0085\u0086\u0087\u0088\u0089\u008A\u008B\u008C\u008D\u008E\u008F",
      "\u0090\u0091\u0092\u0093\u0094\u0095\u0096\u0097\u0098\u0099\u009A\u009B\u009C\u009D\u009E\u009F",
      "\u00A0\uFFFD¢£¤¥¦§¨©×«¬\u00AD®¯", "°±²³´µ¶·¸¹÷»¼½¾\uFFFD",
      "\uFFFD\uFFFD\uFFFD\uFFFD\uFFFD\uFFFD\uFFFD\uFFFD\uFFFD\uFFFD\uFFFD\uFFFD\uFFFD\uFFFD\uFFFD\uFFFD",
      "\uFFFD\uFFFD\uFFFD\uFFFD\uFFFD\uFFFD\uFFFD\uFFFD\uFFFD\uFFFD\uFFFD\uFFFD\uFFFD\uFFFD\uFFFD‗",
      "\u05D0\u05D1\u05D2\u05D3\u05D4\u05D5\u05D6\u05D7\u05D8\u05D9\u05DA\u05DB\u05DC\u05DD\u05DE\u05DF",
      "\u05E0\u05E1\u05E2\u05E3\u05E4\u05E5\u05E6\u05E7\u05E8\u05E9\u05EA\uFFFD\uFFFD\u200E\u200F\uFFFD"], []⟩ },
  { names := ["iso8859_9"]
    aliases := ["csisolatin5", "iso_8859_9", "iso_8859_9_1989", "iso_ir_148", "l5", "latin5"]
    table := some ⟨[
      "\u0080\u0081\u0082\u0083\u0084\u0085\u0086\u0087\u0088\u0089\u008A\u008B\u008C\u008D\u008E\u008F",
      "\u0090\u0091\u0092\u0093\u0094\u0095\u0096\u0097\u0098\u0099\u009A\u009B\u009C\u009D\u009E\u009F",
      "\u00A0¡¢£¤¥¦§¨©ª«¬\u00AD®¯", "°±²³´µ¶·¸¹º»¼½¾¿", "ÀÁÂÃÄÅÆÇÈÉÊËÌÍÎÏ",
      "ĞÑÒÓÔÕÖ×ØÙÚÛÜİŞß", "àáâãäåæçèéêëìíîï", "ğñòóôõö÷øùúûüışÿ"], []⟩ },
  { names := ["koi8_r"]
    aliases := ["cskoi8r"]
    table := some ⟨[
      "─│┌┐└┘├┤┬┴┼▀▄█▌▐", "░▒▓⌠■∙√≈≤≥\u00A0⌡°²·÷", "═║╒ё╓╔╕╖╗╘╙╚╛╜╝╞", "╟╠╡Ё╢╣╤╥╦╧╨╩╪╫╬©",
      "юабцдефгхийклмно", "пярстужвьызшэщчъ", "ЮАБЦДЕФГХИЙКЛМНО", "ПЯРСТУЖВЬЫЗШЭЩЧЪ"], []⟩ },
  { names := ["koi8_t"]
    aliases := []
    table := some ⟨[
      "қғ‚Ғ„…†‡\uFFFD‰ҳ‹ҲҷҶ\uFFFD", "Қ‘’“”•–—\uFFFD™\uFFFD›\uFFFD\uFFFD\uFFFD\uFFFD",
      "\uFFFDӯӮё¤ӣ¦§\uFFFD\uFFFD\uFFFD«¬\u00AD®\uFFFD",
      "°±²Ё\uFFFDӢ¶·\uFFFD№\uFFFD»\uFFFD\uFFFD\uFFFD©", "юабцдефгхийклмно",
      "пярстужвьызшэщчъ", "ЮАБЦДЕФГХИЙКЛМНО", "ПЯРСТУЖВЬЫЗШЭЩЧЪ"], []⟩ },
  { names := ["koi8_u"]
    aliases := []
    table := some ⟨[
      "─│┌┐└┘├┤┬┴┼▀▄█▌▐", "░▒▓⌠■∙√≈≤≥\u00A0⌡°²·÷", "═║╒ёє╔ії╗╘╙╚╛ґ╝╞", "╟╠╡ЁЄ╣ІЇ╦╧╨╩╪Ґ╬©",
      "юабцдефгхийклмно", "пярстужвьызшэщчъ", "ЮАБЦДЕФГХИЙКЛМНО", "ПЯРСТУЖВЬЫЗШЭЩЧЪ"], []⟩ },
  { names := ["kz1048"]
    aliases := ["kz_1048", "rk1048", "strk1048_2002"]
    table := some ⟨[
      "ЂЃ‚ѓ„…†‡€‰Љ‹ЊҚҺЏ", "ђ‘’“”•–—\uFFFD™љ›њқһџ", "\u00A0ҰұӘ¤Ө¦§Ё©Ғ«¬\u00AD®Ү",
      "°±Ііөµ¶·ё№ғ»әҢңү", "АБВГДЕЖЗИЙКЛМНОП", "РСТУФХЦЧШЩЪЫЬЭЮЯ", "абвгдежзийклмноп",
      "рстуфхцчшщъыьэюя"], []⟩ },
  { names := ["mac_croatian"]
    aliases := []
    table := some ⟨[
      "ÄÅÇÉÑÖÜáàâäãåçéè", "êëíìîïñóòôöõúùûü", "†°¢£§•¶ß®Š™´¨≠ŽØ", "∞±≤≥∆µ∂∑∏š∫ªºΩžø",
      "¿¡¬√ƒ≈Ć«Č…\u00A0ÀÃÕŒœ", "Đ—“”‘’÷◊\uF8FF©⁄€‹›Æ»", "–·‚„‰ÂćÁčÈÍÎÏÌÓÔ",
      "đÒÚÛÙıˆ˜¯πË˚¸Êæˇ"], []⟩ },
  { names := ["mac_cyrillic"]
    aliases := ["maccyrillic"]
    table := some ⟨[
      "АБВГДЕЖЗИЙКЛМНОП", "РСТУФХЦЧШЩЪЫЬЭЮЯ", "†°Ґ£§•¶І®©™Ђђ≠Ѓѓ", "∞±≤≥іµґЈЄєЇїЉљЊњ",
      "јЅ¬√ƒ≈∆«»…\u00A0ЋћЌќѕ", "–—“”‘’÷„ЎўЏџ№Ёёя", "абвгдежзийклмноп", "рстуфхцчшщъыьэю€"], []⟩ },
  { names := ["mac_greek"]
    aliases := ["macgreek"]
    table := some ⟨[
      "Ä¹²É³ÖÜ΅àâä΄¨çéè", "êë£™îï•½‰ôö¦€ùûü", "†ΓΔΘΛΞΠß®©ΣΪ§≠°·", "Α±≤≥¥ΒΕΖΗΙΚΜΦΫΨΩ",
      "άΝ¬ΟΡ≈Τ«»…\u00A0ΥΧΆΈœ", "–―“”‘’÷ΉΊΌΎέήίόΏ", "ύαβψδεφγηιξκλμνο",
      "πώρστθωςχυζϊϋΐΰ\u00AD"], []⟩ },
  { names := ["mac_iceland"]
    aliases := ["maciceland"]
    table := some ⟨[
      "ÄÅÇÉÑÖÜáàâäãåçéè", "êëíìîïñóòôöõúùûü", "Ý°¢£§•¶ß®©™´¨≠ÆØ", "∞±≤≥¥µ∂∑∏π∫ªºΩæø",
      "¿¡¬√ƒ≈∆«»…\u00A0ÀÃÕŒœ", "–—“”‘’÷◊ÿŸ⁄€ÐðÞþ", "ý·‚„‰ÂÊÁËÈÍÎÏÌÓÔ",
      "\uF8FFÒÚÛÙıˆ˜¯˘˙˚¸˝˛ˇ"], []⟩ },
  { names := ["mac_latin2"]
    aliases := ["mac_centeuro", "maccentraleurope", "maclatin2"]
    table := some ⟨[
      "ÄĀāÉĄÖÜáąČäčĆćéŹ", "źĎíďĒēĖóėôöõúĚěü", "†°Ę£§•¶ß®©™ę¨≠ģĮ", "įĪ≤≥īĶ∂∑łĻļĽľĹĺŅ",
      "ņŃ¬√ńŇ∆«»…\u00A0ňŐÕőŌ", "–—“”‘’÷◊ōŔŕŘ‹›řŖ", "ŗŠ‚„šŚśÁŤťÍŽžŪÓÔ", "ūŮÚůŰűŲųÝýķŻŁżĢˇ"], []⟩ },
  { names := ["mac_roman"]
    aliases := ["macintosh", "macroman"]
    table := some ⟨[
      "ÄÅÇÉÑÖÜáàâäãåçéè", "êëíìîïñóòôöõúùûü", "†°¢£§•¶ß®©™´¨≠ÆØ", "∞±≤≥¥µ∂∑∏π∫ªºΩæø",
      "¿¡¬√ƒ≈∆«»…\u00A0ÀÃÕŒœ", "–—“”‘’÷◊ÿŸ⁄€‹›\uFB01\uFB02", "‡·‚„‰ÂÊÁËÈÍÎÏÌÓÔ",
      "\uF8FFÒÚÛÙıˆ˜¯˘˙˚¸˝˛ˇ"], []⟩ },
  { names := ["mac_romanian"]
    aliases := []
    table := some ⟨[
      "ÄÅÇÉÑÖÜáàâäãåçéè", "êëíìîïñóòôöõúùûü", "†°¢£§•¶ß®©™´¨≠ĂȘ", "∞±≤≥¥µ∂∑∏π∫ªºΩăș",
      "¿¡¬√ƒ≈∆«»…\u00A0ÀÃÕŒœ", "–—“”‘’÷◊ÿŸ⁄€‹›Țț", "‡·‚„‰ÂÊÁËÈÍÎÏÌÓÔ",
      "\uF8FFÒÚÛÙıˆ˜¯˘˙˚¸˝˛ˇ"], []⟩ },
  { names := ["mac_turkish"]
    aliases := ["macturkish"]
    table := some ⟨[
      "ÄÅÇÉÑÖÜáàâäãåçéè", "êëíìîïñóòôöõúùûü", "†°¢£§•¶ß®©™´¨≠ÆØ", "∞±≤≥¥µ∂∑∏π∫ªºΩæø",
      "¿¡¬√ƒ≈∆«»…\u00A0ÀÃÕŒœ", "–—“”‘’÷◊ÿŸĞğİıŞş", "‡·‚„‰ÂÊÁËÈÍÎÏÌÓÔ",
      "\uF8FFÒÚÛÙ\uF8A0ˆ˜¯˘˙˚¸˝˛ˇ"], []⟩ },
  { names := ["palmos"]
    aliases := []
    table := some ⟨[
      "€\u0081‚ƒ„…†‡ˆ‰Š‹Œ♦♣♥", "♠‘’“”•–—˜™š\u009Bœ\u009D\u009EŸ",
      "\u00A0¡¢£¤¥¦§¨©ª«¬\u00AD®¯", "°±²³´µ¶·¸¹º»¼½¾¿", "ÀÁÂÃÄÅÆÇÈÉÊËÌÍÎÏ",
      "ÐÑÒÓÔÕÖ×ØÙÚÛÜÝÞß", "àáâãäåæçèéêëìíîï", "ðñòóôõö÷øùúûüýþÿ"], []⟩ },
  { names := ["ptcp154"]
    aliases := ["cp154", "csptcp154", "cyrillic_asian", "pt154"]
    table := some ⟨[
      "ҖҒӮғ„…ҶҮҲүҠӢҢҚҺҸ", "җ‘’“”•–—ҳҷҡӣңқһҹ", "\u00A0ЎўЈӨҘҰ§Ё©Ә«¬ӯ®Ҝ", "°ұІіҙө¶·ё№ә»јҪҫҝ",
      "АБВГДЕЖЗИЙКЛМНОП", "РСТУФХЦЧШЩЪЫЬЭЮЯ", "абвгдежзийклмноп", "рстуфхцчшщъыьэюя"], []⟩ },
  { names := ["tis_620"]
    aliases := ["iso_ir_166", "tis620", "tis_620_0", "tis_620_2529_0", "tis_620_2529_1"]
    table := some ⟨[
      "\u0080\u0081\u0082\u0083\u0084\u0085\u0086\u0087\u0088\u0089\u008A\u008B\u008C\u008D\u008E\u008F",
      "\u0090\u0091\u0092\u0093\u0094\u0095\u0096\u0097\u0098\u0099\u009A\u009B\u009C\u009D\u009E\u009F",
      "\uFFFDกขฃคฅฆงจฉชซฌญฎฏ", "ฐฑฒณดตถทธนบปผฝพฟ", "ภมยรฤลฦวศษสหฬอฮฯ",
      "\u0E30\u0E31\u0E32\u0E33\u0E34\u0E35\u0E36\u0E37\u0E38\u0E39\u0E3A\uFFFD\uFFFD\uFFFD\uFFFD\u0E3F",
      "\u0E40\u0E41\u0E42\u0E43\u0E44\u0E45\u0E46\u0E47\u0E48\u0E49\u0E4A\u0E4B\u0E4C\u0E4D\u0E4E๏",
      "๐๑๒๓๔๕๖๗๘๙๚๛\uFFFD\uFFFD\uFFFD\uFFFD"], []⟩ },
  { names := ["big5", "big5hkscs", "cp037", "cp1026", "cp1140", "cp273", "cp424", "cp500",
    "cp864", "cp875", "cp932", "cp949", "cp950", "euc_jis_2004", "euc_jisx0213",
    "euc_jp", "euc_kr", "gb18030", "gb2312", "gbk", "idna", "iso2022_kr", "johab",
    "mac_arabic", "mac_farsi", "punycode", "shift_jis", "shift_jis_2004",
    "shift_jisx0213", "undefined", "utf_16", "utf_16_be", "utf_16_le", "utf_32",
    "utf_32_be", "utf_32_le", "utf_7"]
    aliases := ["037", "1026", "1140", "273", "424", "500", "864", "932", "936", "949", "950",
    "big5_hkscs", "big5_tw", "chinese", "cp1361", "cp936", "csbig5", "csibm037",
    "csibm1026", "csibm273", "csibm424", "csibm500", "csibm864", "csiso2022kr",
    "csiso58gb231280", "csshiftjis", "ebcdic_cp_be", "ebcdic_cp_ca", "ebcdic_cp_ch",
    "ebcdic_cp_he", "ebcdic_cp_nl", "ebcdic_cp_us", "ebcdic_cp_wt", "euc_cn",
    "euc_jis2004", "euccn", "eucgb2312_cn", "eucjis2004", "eucjisx0213", "eucjp",
    "euckr", "gb18030_2000", "gb2312_1980", "gb2312_80", "hkscs", "ibm037", "ibm039",
    "ibm1026", "ibm1140", "ibm273", "ibm424", "ibm500", "ibm864", "iso2022kr",
    "iso_2022_kr", "iso_ir_58", "jisx0213", "korean", "ks_c_5601", "ks_c_5601_1987",
    "ks_x_1001", "ksc5601", "ksx1001", "ms1361", "ms932", "ms936", "ms949", "ms950",
    "ms_kanji", "mskanji", "s_jis", "s_jis_2004", "s_jisx0213", "shiftjis",
    "shiftjis2004", "shiftjisx0213", "sjis", "sjis_2004", "sjisx0213", "u16", "u32",
    "u7", "u_jis", "uhc", "ujis", "unicode_1_1_utf_7", "unicodebigunmarked",
    "unicodelittleunmarked", "utf16", "utf32", "utf7", "utf_16be", "utf_16le",
    "utf_32be", "utf_32le", "x_mac_japanese", "x_mac_korean", "x_mac_simp_chinese",
    "x_mac_trad_chinese"]
    table := none }]

namespace Charset

/-- A name in lower case, with each run of other characters than letters, digits and dots as one
    underscore, and none at the ends. -/
def normalized (name : List Char) : List Char :=
  let words := (name.map fun c => if c.isAlphanum ∨ c = '.' then c.toLower else ' ').splitOn ' '
  ['_'].intercalate (words.filter (· ≠ []))

/-- The set with a given name. -/
def named? (name : List Char) : Option Charset :=
  let key := String.ofList (normalized name)
  let undotted := String.ofList ((normalized name).map fun c => if c = '.' then '_' else c)
  match charsets.find? fun s => s.aliases.contains key || s.aliases.contains undotted with
  | some s => some s
  | none => charsets.find? fun s => s.names.contains key

end Charset

/-- The character that a byte stands for. -/
def CharTable.char? (t : CharTable) (b : UInt8) : Option Char :=
  let n := b.toNat
  if n < 128 then
    if t.missing.contains n then none else some (Char.ofNat n)
  else
    match t.upper[n / 16 - 8]? with
    | some row => row.toList[n % 16]?.filter (· ≠ '\uFFFD')
    | none => none

end PropertyList.Xml
