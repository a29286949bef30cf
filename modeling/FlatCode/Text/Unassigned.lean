/-! Code points without a character. -/

namespace FlatCode.Text

/-- The code points that no character is assigned to, in ranges: the first of each, and how many. -/
def unassigned : List (Nat × Nat) :=
  [
    (0x378, 2), (0x380, 4), (0x38B, 1), (0x38D, 1), (0x3A2, 1), (0x530, 1), (0x557, 2), (0x58B, 2), (0x590, 1),
    (0x5C8, 8), (0x5EB, 4), (0x5F5, 11), (0x70E, 1), (0x74B, 2), (0x7B2, 14), (0x7FB, 2), (0x82E, 2), (0x83F, 1),
    (0x85C, 2), (0x85F, 1), (0x86B, 5), (0x892, 5), (0x984, 1), (0x98D, 2), (0x991, 2), (0x9A9, 1), (0x9B1, 1),
    (0x9B3, 3), (0x9BA, 2), (0x9C5, 2), (0x9C9, 2), (0x9CF, 8), (0x9D8, 4), (0x9DE, 1), (0x9E4, 2), (0x9FF, 2),
    (0xA04, 1), (0xA0B, 4), (0xA11, 2), (0xA29, 1), (0xA31, 1), (0xA34, 1), (0xA37, 1), (0xA3A, 2), (0xA3D, 1),
    (0xA43, 4), (0xA49, 2), (0xA4E, 3), (0xA52, 7), (0xA5D, 1), (0xA5F, 7), (0xA77, 10), (0xA84, 1), (0xA8E, 1),
    (0xA92, 1), (0xAA9, 1), (0xAB1, 1), (0xAB4, 1), (0xABA, 2), (0xAC6, 1), (0xACA, 1), (0xACE, 2), (0xAD1, 15),
    (0xAE4, 2), (0xAF2, 7), (0xB00, 1), (0xB04, 1), (0xB0D, 2), (0xB11, 2), (0xB29, 1), (0xB31, 1), (0xB34, 1),
    (0xB3A, 2), (0xB45, 2), (0xB49, 2), (0xB4E, 7), (0xB58, 4), (0xB5E, 1), (0xB64, 2), (0xB78, 10), (0xB84, 1),
    (0xB8B, 3), (0xB91, 1), (0xB96, 3), (0xB9B, 1), (0xB9D, 1), (0xBA0, 3), (0xBA5, 3), (0xBAB, 3), (0xBBA, 4),
    (0xBC3, 3), (0xBC9, 1), (0xBCE, 2), (0xBD1, 6), (0xBD8, 14), (0xBFB, 5), (0xC0D, 1), (0xC11, 1), (0xC29, 1),
    (0xC3A, 2), (0xC45, 1), (0xC49, 1), (0xC4E, 7), (0xC57, 1), (0xC5B, 1), (0xC5E, 2), (0xC64, 2), (0xC70, 7),
    (0xC8D, 1), (0xC91, 1), (0xCA9, 1), (0xCB4, 1), (0xCBA, 2), (0xCC5, 1), (0xCC9, 1), (0xCCE, 7), (0xCD7, 5),
    (0xCDF, 1), (0xCE4, 2), (0xCF0, 1), (0xCF4, 12), (0xD0D, 1), (0xD11, 1), (0xD45, 1), (0xD49, 1), (0xD50, 4),
    (0xD64, 2), (0xD80, 1), (0xD84, 1), (0xD97, 3), (0xDB2, 1), (0xDBC, 1), (0xDBE, 2), (0xDC7, 3), (0xDCB, 4),
    (0xDD5, 1), (0xDD7, 1), (0xDE0, 6), (0xDF0, 2), (0xDF5, 12), (0xE3B, 4), (0xE5C, 37), (0xE83, 1), (0xE85, 1),
    (0xE8B, 1), (0xEA4, 1), (0xEA6, 1), (0xEBE, 2), (0xEC5, 1), (0xEC7, 1), (0xECF, 1), (0xEDA, 2), (0xEE0, 32),
    (0xF48, 1), (0xF6D, 4), (0xF98, 1), (0xFBD, 1), (0xFCD, 1), (0xFDB, 37), (0x10C6, 1), (0x10C8, 5), (0x10CE, 2),
    (0x1249, 1), (0x124E, 2), (0x1257, 1), (0x1259, 1), (0x125E, 2), (0x1289, 1), (0x128E, 2), (0x12B1, 1), (0x12B6, 2),
    (0x12BF, 1), (0x12C1, 1), (0x12C6, 2), (0x12D7, 1), (0x1311, 1), (0x1316, 2), (0x135B, 2), (0x137D, 3), (0x139A, 6),
    (0x13F6, 2), (0x13FE, 2), (0x169D, 3), (0x16F9, 7), (0x1716, 9), (0x1737, 9), (0x1754, 12), (0x176D, 1),
    (0x1771, 1), (0x1774, 12), (0x17DE, 2), (0x17EA, 6), (0x17FA, 6), (0x181A, 6), (0x1879, 7), (0x18AB, 5),
    (0x18F6, 10), (0x191F, 1), (0x192C, 4), (0x193C, 4), (0x1941, 3), (0x196E, 2), (0x1975, 11), (0x19AC, 4),
    (0x19CA, 6), (0x19DB, 3), (0x1A1C, 2), (0x1A5F, 1), (0x1A7D, 2), (0x1A8A, 6), (0x1A9A, 6), (0x1AAE, 2), (0x1ADE, 2),
    (0x1AEC, 20), (0x1B4D, 1), (0x1BF4, 8), (0x1C38, 3), (0x1C4A, 3), (0x1C8B, 5), (0x1CBB, 2), (0x1CC8, 8),
    (0x1CFB, 5), (0x1F16, 2), (0x1F1E, 2), (0x1F46, 2), (0x1F4E, 2), (0x1F58, 1), (0x1F5A, 1), (0x1F5C, 1), (0x1F5E, 1),
    (0x1F7E, 2), (0x1FB5, 1), (0x1FC5, 1), (0x1FD4, 2), (0x1FDC, 1), (0x1FF0, 2), (0x1FF5, 1), (0x1FFF, 1), (0x2065, 1),
    (0x2072, 2), (0x208F, 1), (0x209D, 3), (0x20C2, 14), (0x20F1, 15), (0x218C, 4), (0x242A, 22), (0x244B, 21),
    (0x2B74, 2), (0x2CF4, 5), (0x2D26, 1), (0x2D28, 5), (0x2D2E, 2), (0x2D68, 7), (0x2D71, 14), (0x2D97, 9),
    (0x2DA7, 1), (0x2DAF, 1), (0x2DB7, 1), (0x2DBF, 1), (0x2DC7, 1), (0x2DCF, 1), (0x2DD7, 1), (0x2DDF, 1),
    (0x2E5E, 34), (0x2E9A, 1), (0x2EF4, 12), (0x2FD6, 26), (0x3040, 1), (0x3097, 2), (0x3100, 5), (0x3130, 1),
    (0x318F, 1), (0x31E6, 9), (0x321F, 1), (0xA48D, 3), (0xA4C7, 9), (0xA62C, 20), (0xA6F8, 8), (0xA7DD, 20),
    (0xA82D, 3), (0xA83A, 6), (0xA878, 8), (0xA8C6, 8), (0xA8DA, 6), (0xA954, 11), (0xA97D, 3), (0xA9CE, 1),
    (0xA9DA, 4), (0xA9FF, 1), (0xAA37, 9), (0xAA4E, 2), (0xAA5A, 2), (0xAAC3, 24), (0xAAF7, 10), (0xAB07, 2),
    (0xAB0F, 2), (0xAB17, 9), (0xAB27, 1), (0xAB2F, 1), (0xAB6C, 4), (0xABEE, 2), (0xABFA, 6), (0xD7A4, 12),
    (0xD7C7, 4), (0xD7FC, 4), (0xFA6E, 2), (0xFADA, 38), (0xFB07, 12), (0xFB18, 5), (0xFB37, 1), (0xFB3D, 1),
    (0xFB3F, 1), (0xFB42, 1), (0xFB45, 1), (0xFDD0, 32), (0xFE1A, 6), (0xFE53, 1), (0xFE67, 1), (0xFE6C, 4),
    (0xFE75, 1), (0xFEFD, 2), (0xFF00, 1), (0xFFBF, 3), (0xFFC8, 2), (0xFFD0, 2), (0xFFD8, 2), (0xFFDD, 3), (0xFFE7, 1),
    (0xFFEF, 10), (0xFFFE, 2), (0x1000C, 1), (0x10027, 1), (0x1003B, 1), (0x1003E, 1), (0x1004E, 2), (0x1005E, 34),
    (0x100FB, 5), (0x10103, 4), (0x10134, 3), (0x1018F, 1), (0x1019D, 3), (0x101A1, 47), (0x101FE, 130), (0x1029D, 3),
    (0x102D1, 15), (0x102FC, 4), (0x10324, 9), (0x1034B, 5), (0x1037B, 5), (0x1039E, 1), (0x103C4, 4), (0x103D6, 42),
    (0x1049E, 2), (0x104AA, 6), (0x104D4, 4), (0x104FC, 4), (0x10528, 8), (0x10564, 11), (0x1057B, 1), (0x1058B, 1),
    (0x10593, 1), (0x10596, 1), (0x105A2, 1), (0x105B2, 1), (0x105BA, 1), (0x105BD, 3), (0x105F4, 12), (0x10737, 9),
    (0x10756, 10), (0x10768, 24), (0x10786, 1), (0x107B1, 1), (0x107BB, 69), (0x10806, 2), (0x10809, 1), (0x10836, 1),
    (0x10839, 3), (0x1083D, 2), (0x10856, 1), (0x1089F, 8), (0x108B0, 48), (0x108F3, 1), (0x108F6, 5), (0x1091C, 3),
    (0x1093A, 5), (0x1095A, 38), (0x109B8, 4), (0x109D0, 2), (0x10A04, 1), (0x10A07, 5), (0x10A14, 1), (0x10A18, 1),
    (0x10A36, 2), (0x10A3B, 4), (0x10A49, 7), (0x10A59, 7), (0x10AA0, 32), (0x10AE7, 4), (0x10AF7, 9), (0x10B36, 3),
    (0x10B56, 2), (0x10B73, 5), (0x10B92, 7), (0x10B9D, 12), (0x10BB0, 80), (0x10C49, 55), (0x10CB3, 13), (0x10CF3, 7),
    (0x10D28, 8), (0x10D3A, 6), (0x10D66, 3), (0x10D86, 8), (0x10D90, 208), (0x10E7F, 1), (0x10EAA, 1), (0x10EAE, 2),
    (0x10EB2, 16), (0x10EC8, 8), (0x10ED9, 33), (0x10F28, 8), (0x10F5A, 22), (0x10F8A, 38), (0x10FCC, 20), (0x10FF7, 9),
    (0x1104E, 4), (0x11076, 9), (0x110C3, 10), (0x110CE, 2), (0x110E9, 7), (0x110FA, 6), (0x11135, 1), (0x11148, 8),
    (0x11177, 9), (0x111E0, 1), (0x111F5, 11), (0x11212, 1), (0x11242, 62), (0x11287, 1), (0x11289, 1), (0x1128E, 1),
    (0x1129E, 1), (0x112AA, 6), (0x112EB, 5), (0x112FA, 6), (0x11304, 1), (0x1130D, 2), (0x11311, 2), (0x11329, 1),
    (0x11331, 1), (0x11334, 1), (0x1133A, 1), (0x11345, 2), (0x11349, 2), (0x1134E, 2), (0x11351, 6), (0x11358, 5),
    (0x11364, 2), (0x1136D, 3), (0x11375, 11), (0x1138A, 1), (0x1138C, 2), (0x1138F, 1), (0x113B6, 1), (0x113C1, 1),
    (0x113C3, 2), (0x113C6, 1), (0x113CB, 1), (0x113D6, 1), (0x113D9, 8), (0x113E3, 29), (0x1145C, 1), (0x11462, 30),
    (0x114C8, 8), (0x114DA, 166), (0x115B6, 2), (0x115DE, 34), (0x11645, 11), (0x1165A, 6), (0x1166D, 19), (0x116BA, 6),
    (0x116CA, 6), (0x116E4, 28), (0x1171B, 2), (0x1172C, 4), (0x11747, 185), (0x1183C, 100), (0x118F3, 12),
    (0x11907, 2), (0x1190A, 2), (0x11914, 1), (0x11917, 1), (0x11936, 1), (0x11939, 2), (0x11947, 9), (0x1195A, 70),
    (0x119A8, 2), (0x119D8, 2), (0x119E5, 27), (0x11A48, 8), (0x11AA3, 13), (0x11AF9, 7), (0x11B0A, 86), (0x11B68, 88),
    (0x11BE2, 14), (0x11BFA, 6), (0x11C09, 1), (0x11C37, 1), (0x11C46, 10), (0x11C6D, 3), (0x11C90, 2), (0x11CA8, 1),
    (0x11CB7, 73), (0x11D07, 1), (0x11D0A, 1), (0x11D37, 3), (0x11D3B, 1), (0x11D3E, 1), (0x11D48, 8), (0x11D5A, 6),
    (0x11D66, 1), (0x11D69, 1), (0x11D8F, 1), (0x11D92, 1), (0x11D99, 7), (0x11DAA, 6), (0x11DDC, 4), (0x11DEA, 246),
    (0x11EF9, 7), (0x11F11, 1), (0x11F3B, 3), (0x11F5B, 85), (0x11FB1, 15), (0x11FF2, 13), (0x1239A, 102), (0x1246F, 1),
    (0x12475, 11), (0x12544, 2636), (0x12FF3, 13), (0x13456, 10), (0x143FB, 5), (0x14647, 6841), (0x1613A, 1734),
    (0x16A39, 7), (0x16A5F, 1), (0x16A6A, 4), (0x16ABF, 1), (0x16ACA, 6), (0x16AEE, 2), (0x16AF6, 10), (0x16B46, 10),
    (0x16B5A, 1), (0x16B62, 1), (0x16B78, 5), (0x16B90, 432), (0x16D7A, 198), (0x16E9B, 5), (0x16EB9, 2), (0x16ED4, 44),
    (0x16F4B, 4), (0x16F88, 7), (0x16FA0, 64), (0x16FE5, 11), (0x16FF7, 9), (0x18CD6, 41), (0x18D1F, 97),
    (0x18DF3, 8701), (0x1AFF4, 1), (0x1AFFC, 1), (0x1AFFF, 1), (0x1B123, 15), (0x1B133, 29), (0x1B153, 2),
    (0x1B156, 14), (0x1B168, 8), (0x1B2FC, 2308), (0x1BC6B, 5), (0x1BC7D, 3), (0x1BC89, 7), (0x1BC9A, 2),
    (0x1BCA4, 3932), (0x1CCFD, 3), (0x1CEB4, 6), (0x1CED1, 15), (0x1CEF1, 15), (0x1CF2E, 2), (0x1CF47, 9),
    (0x1CFC4, 60), (0x1D0F6, 10), (0x1D127, 2), (0x1D1EB, 21), (0x1D246, 122), (0x1D2D4, 12), (0x1D2F4, 12),
    (0x1D357, 9), (0x1D379, 135), (0x1D455, 1), (0x1D49D, 1), (0x1D4A0, 2), (0x1D4A3, 2), (0x1D4A7, 2), (0x1D4AD, 1),
    (0x1D4BA, 1), (0x1D4BC, 1), (0x1D4C4, 1), (0x1D506, 1), (0x1D50B, 2), (0x1D515, 1), (0x1D51D, 1), (0x1D53A, 1),
    (0x1D53F, 1), (0x1D545, 1), (0x1D547, 3), (0x1D551, 1), (0x1D6A6, 2), (0x1D7CC, 2), (0x1DA8C, 15), (0x1DAA0, 1),
    (0x1DAB0, 1104), (0x1DF1F, 6), (0x1DF2B, 213), (0x1E007, 1), (0x1E019, 2), (0x1E022, 1), (0x1E025, 1), (0x1E02B, 5),
    (0x1E06E, 33), (0x1E090, 112), (0x1E12D, 3), (0x1E13E, 2), (0x1E14A, 4), (0x1E150, 320), (0x1E2AF, 17),
    (0x1E2FA, 5), (0x1E300, 464), (0x1E4FA, 214), (0x1E5FB, 4), (0x1E600, 192), (0x1E6DF, 1), (0x1E6F6, 8),
    (0x1E700, 224), (0x1E7E7, 1), (0x1E7EC, 1), (0x1E7EF, 1), (0x1E7FF, 1), (0x1E8C5, 2), (0x1E8D7, 41), (0x1E94C, 4),
    (0x1E95A, 4), (0x1E960, 785), (0x1ECB5, 76), (0x1ED3E, 194), (0x1EE04, 1), (0x1EE20, 1), (0x1EE23, 1), (0x1EE25, 2),
    (0x1EE28, 1), (0x1EE33, 1), (0x1EE38, 1), (0x1EE3A, 1), (0x1EE3C, 6), (0x1EE43, 4), (0x1EE48, 1), (0x1EE4A, 1),
    (0x1EE4C, 1), (0x1EE50, 1), (0x1EE53, 1), (0x1EE55, 2), (0x1EE58, 1), (0x1EE5A, 1), (0x1EE5C, 1), (0x1EE5E, 1),
    (0x1EE60, 1), (0x1EE63, 1), (0x1EE65, 2), (0x1EE6B, 1), (0x1EE73, 1), (0x1EE78, 1), (0x1EE7D, 1), (0x1EE7F, 1),
    (0x1EE8A, 1), (0x1EE9C, 5), (0x1EEA4, 1), (0x1EEAA, 1), (0x1EEBC, 52), (0x1EEF2, 270), (0x1F02C, 4), (0x1F094, 12),
    (0x1F0AF, 2), (0x1F0C0, 1), (0x1F0D0, 1), (0x1F0F6, 10), (0x1F1AE, 56), (0x1F203, 13), (0x1F23C, 4), (0x1F249, 7),
    (0x1F252, 14), (0x1F266, 154), (0x1F6D9, 3), (0x1F6ED, 3), (0x1F6FD, 3), (0x1F7DA, 6), (0x1F7EC, 4), (0x1F7F1, 15),
    (0x1F80C, 4), (0x1F848, 8), (0x1F85A, 6), (0x1F888, 8), (0x1F8AE, 2), (0x1F8BC, 4), (0x1F8C2, 14), (0x1F8D9, 39),
    (0x1FA58, 8), (0x1FA6E, 2), (0x1FA7D, 3), (0x1FA8B, 3), (0x1FAC7, 1), (0x1FAC9, 4), (0x1FADD, 2), (0x1FAEB, 4),
    (0x1FAF9, 7), (0x1FB93, 1), (0x1FBFB, 1029), (0x2A6E0, 32), (0x2B81E, 2), (0x2CEAE, 2), (0x2EBE1, 15),
    (0x2EE5E, 2466), (0x2FA1E, 1506), (0x3134B, 5), (0x3347A, 707463), (0xE0002, 30), (0xE0080, 128), (0xE01F0, 65040),
    (0xFFFFE, 2), (0x10FFFE, 2)
  ]

end FlatCode.Text
