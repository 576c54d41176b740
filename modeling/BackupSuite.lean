import BackupSuite.Library.Cursor
import BackupSuite.Library.KeyedList
import BackupSuite.Library.Substring
import BackupSuite.CtrlCenter.ParseBuffer
import BackupSuite.CtrlCenter.FileHashes
import BackupSuite.CtrlCenter.DatabaseFile
import BackupSuite.CtrlCenter.ReadDatabase
import BackupSuite.CtrlCenter.RoundTrip
import BackupSuite.CtrlCenter.ParseRounds
import BackupSuite.CtrlCenter.ParseLines
import BackupSuite.CtrlCenter.ParseSaved
import BackupSuite.CtrlCenter.ParseBehind
import BackupSuite.CtrlCenter.HashStage
import BackupSuite.CtrlCenter.RunSubprocess
import BackupSuite.CtrlCenter.CreateRun
import BackupSuite.CtrlCenter.IncrementalLaw
import BackupSuite.CtrlCenter.SecondRun
import BackupSuite.CtrlCenter.Rebuild
import BackupSuite.CtrlCenter.DatabaseDamage
import BackupSuite.Library.LexicalPath
import BackupSuite.Library.WorkList
import BackupSuite.Library.StepSystem
import BackupSuite.Library.LittleEndian
import BackupSuite.CtrlCenter.CompressFile
import BackupSuite.CtrlCenter.CopyFile
import BackupSuite.CtrlCenter.ArchiveNames
import BackupSuite.CtrlCenter.OutputNames
import BackupSuite.CtrlCenter.Paths
import BackupSuite.CtrlCenter.MainConfiguration
import BackupSuite.CtrlCenter.OutputFolders
import BackupSuite.CtrlCenter.SmartCreate
import BackupSuite.CtrlCenter.SmartCreateTruth
import BackupSuite.CtrlCenter.ScanFiles
import BackupSuite.CtrlCenter.ScanExact
import BackupSuite.CtrlCenter.Restore
import BackupSuite.CtrlCenter.CreateProcess
import BackupSuite.CtrlCenter.TaskQueue
import BackupSuite.CtrlCenter.ThreadPool
import BackupSuite.CtrlCenter.NoFalseRecord
import BackupSuite.CtrlCenter.SelfContained
import BackupSuite.Library.SparseFile
import BackupSuite.Zpaq.Fragments
import BackupSuite.Zpaq.Archive
import BackupSuite.Zpaq.Add
import BackupSuite.Zpaq.CompressJobRuns
import BackupSuite.Zpaq.Dates
import BackupSuite.Zpaq.Journal
import BackupSuite.Zpaq.JournalRead
import BackupSuite.Zpaq.JournalContents
import BackupSuite.Zpaq.OutputArchive
import BackupSuite.Zpaq.JournalRuns
import BackupSuite.Zpaq.DecompressJob
import BackupSuite.Zpaq.HTIndex
import BackupSuite.Library.ProbeTable
import BackupSuite.Zpaq.CoderSegments
import BackupSuite.Zpaq.Blocks
import BackupSuite.Zpaq.SHA1
import BackupSuite.Zpaq.Extract
import BackupSuite.Zpaq.ExtractBlocks
import BackupSuite.Zpaq.E8E9
import BackupSuite.Zpaq.Newest
import BackupSuite.CtrlCenter.NewestVersion
import BackupSuite.Library.Jobs
import BackupSuite.Library.BigEndian
import BackupSuite.CtrlCenter.VerifyArchive
import BackupSuite.CtrlCenter.VerifyProcess
import BackupSuite.CtrlCenter.VerifyExact
import BackupSuite.CtrlCenter.VerifyLeftovers
import BackupSuite.Library.Utf8
import BackupSuite.Python.Text
import BackupSuite.Python.MergeFilehashes
import BackupSuite.Python.MergesAgree
import BackupSuite.Python.Verify
import BackupSuite.Python.VerifySound
import BackupSuite.Python.TempNames
import BackupSuite.Python.Create
import BackupSuite.Python.Rebuild
import BackupSuite.Python.RelativePaths
import BackupSuite.Library.Numeral
import BackupSuite.Library.SlotTable
import BackupSuite.Precomp.TempFiles
import BackupSuite.Precomp.Recursion
import BackupSuite.Precomp.TempFileList
import BackupSuite.Precomp.Container
