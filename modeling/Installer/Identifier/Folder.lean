import Installer.Text.Basic
import Installer.Text.Pieces

/-!
# Folders the installer knows

Some folders of the target system have identifiers of their own. A path may name such a folder by a
placeholder between percent signs, by its identifier, or by its identifier in brackets.
-/

namespace Installer.Identifier

/-- The placeholders and the folders they stand for, in the order in which they are looked up. -/
def specialFolders : List (String × String) := [
  ("%AdminToolsFolder%", "AdminToolsFolder"),
  ("%AppDataFolder%", "AppDataFolder"),
  ("%CommonAppDataFolder%", "CommonAppDataFolder"),
  ("%CommonFiles64Folder%", "CommonFiles64Folder"),
  ("%CommonFilesFolder%", "CommonFilesFolder"),
  ("%DesktopFolder%", "DesktopFolder"),
  ("%FavoritesFolder%", "FavoritesFolder"),
  ("%FontsFolder%", "FontsFolder"),
  ("%LocalAppDataFolder%", "LocalAppDataFolder"),
  ("%MyPicturesFolder%", "MyPicturesFolder"),
  ("%PersonalFolder%", "PersonalFolder"),
  ("%ProgramFiles64Folder%", "ProgramFiles64Folder"),
  ("%ProgramFilesFolder%", "ProgramFilesFolder"),
  ("%ProgramMenuFolder%", "ProgramMenuFolder"),
  ("%SendToFolder%", "SendToFolder"),
  ("%StartMenuFolder%", "StartMenuFolder"),
  ("%StartupFolder%", "StartupFolder"),
  ("%System16Folder%", "System16Folder"),
  ("%System64Folder%", "System64Folder"),
  ("%SystemFolder%", "SystemFolder"),
  ("%TempFolder%", "TempFolder"),
  ("%TemplateFolder%", "TemplateFolder"),
  ("%WindowsFolder%", "WindowsFolder"),
  ("%WindowsVolume%", "WindowsVolume"),
  ("%AdminTools%", "AdminToolsFolder"),
  ("%AppData%", "AppDataFolder"),
  ("%CommonAppData%", "CommonAppDataFolder"),
  ("%CommonFiles64%", "CommonFiles64Folder"),
  ("%CommonFiles%", "CommonFilesFolder"),
  ("%Desktop%", "DesktopFolder"),
  ("%Favorites%", "FavoritesFolder"),
  ("%Fonts%", "FontsFolder"),
  ("%LocalAppData%", "LocalAppDataFolder"),
  ("%MyPictures%", "MyPicturesFolder"),
  ("%Personal%", "PersonalFolder"),
  ("%ProgramFiles64%", "ProgramFiles64Folder"),
  ("%ProgramFiles%", "ProgramFilesFolder"),
  ("%ProgramMenu%", "ProgramMenuFolder"),
  ("%SendTo%", "SendToFolder"),
  ("%StartMenu%", "StartMenuFolder"),
  ("%Startup%", "StartupFolder"),
  ("%System16%", "System16Folder"),
  ("%System64%", "System64Folder"),
  ("%System%", "SystemFolder"),
  ("%Temp%", "TempFolder"),
  ("%Template%", "TemplateFolder"),
  ("%Windows%", "WindowsFolder")]

/-- A text between brackets. -/
def bracketed (cs : List Char) : List Char :=
  '[' :: cs ++ [']']

/-- Every placeholder and every bracketed identifier of a special folder replaced by the plain
identifier, one folder after the other. -/
def expandFolders (cs : List Char) : List Char :=
  specialFolders.foldl
    (fun cs f =>
      Text.replaceAll (bracketed f.2.toList) f.2.toList
        (Text.replaceAll f.1.toList f.2.toList cs))
    cs

/-- The text without the brackets around it, or the whole text where either is missing. -/
def unbracketed (s : String) : String :=
  match s.toList with
  | '[' :: rest => if rest.getLast? = some ']' then String.ofList rest.dropLast else s
  | _ => s

/-- The special folder that a path segment names as a whole, letter case aside. -/
def specialFolder? (segment : String) : Option String :=
  let bare := unbracketed segment
  (specialFolders.find? fun f => Text.sameText f.1 segment || Text.sameText f.2 bare).map (·.2)

end Installer.Identifier
