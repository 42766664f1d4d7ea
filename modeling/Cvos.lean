import Cvos.Auth.DayCount
import Cvos.Auth.Expiry
import Cvos.CfgFile.CommentLines
import Cvos.CfgFile.CopyMeaning
import Cvos.CfgFile.Cursor
import Cvos.CfgFile.DeletedKey
import Cvos.CfgFile.Entry
import Cvos.CfgFile.FailedRefresh
import Cvos.CfgFile.FileApi
import Cvos.CfgFile.FileCycle
import Cvos.CfgFile.FileMap
import Cvos.CfgFile.Find
import Cvos.CfgFile.FlagWord
import Cvos.CfgFile.LastLine
import Cvos.CfgFile.LineGrammar
import Cvos.CfgFile.Listing
import Cvos.CfgFile.ListingHistory
import Cvos.CfgFile.LongValues
import Cvos.CfgFile.Lookup
import Cvos.CfgFile.Mirror
import Cvos.CfgFile.Output
import Cvos.CfgFile.OutputFormatted
import Cvos.CfgFile.OutputMeaning
import Cvos.CfgFile.Parse
import Cvos.CfgFile.ParseProgress
import Cvos.CfgFile.ParseRefinement
import Cvos.CfgFile.PlainText
import Cvos.CfgFile.Processes
import Cvos.CfgFile.Reread
import Cvos.CfgFile.Searches
import Cvos.CfgFile.Sectionless
import Cvos.CfgFile.SlotArray
import Cvos.CfgFile.SlotBounds
import Cvos.CfgFile.SlotRefinement
import Cvos.CfgFile.Slots
import Cvos.CfgFile.StringOwnership
import Cvos.CfgFile.Traversal
import Cvos.CfgFile.Updates
import Cvos.CfgFile.Write
import Cvos.CfgFile.WriteEffect
import Cvos.CfgFile.WriteLookup
import Cvos.CfgFile.WriteRoom
import Cvos.Lib.BinaryPolynomial
import Cvos.Lib.BlockHash
import Cvos.Lib.CArray
import Cvos.Lib.CBuffer
import Cvos.Lib.CDouble
import Cvos.Lib.CMemory
import Cvos.Lib.CToken
import Cvos.Lib.Calendar
import Cvos.Lib.Decimal
import Cvos.Lib.DropOldest
import Cvos.Lib.Forest
import Cvos.Lib.ForestHeap
import Cvos.Lib.Heap
import Cvos.Lib.Json
import Cvos.Lib.LastWrite
import Cvos.Lib.Ledger
import Cvos.Lib.Md5
import Cvos.Lib.Replay
import Cvos.Lib.ShiftRegister
import Cvos.Lib.Siblings
import Cvos.Lib.Supply
import Cvos.Lib.Transition
import Cvos.LibJson.FlatBounds
import Cvos.LibJson.FlatJson
import Cvos.LibJson.FlatRoundTrip
import Cvos.LibJson.FlatSpoiled
import Cvos.LibJson.FlatTokens
import Cvos.LibJson.Item
import Cvos.LibJson.ItemComposites
import Cvos.LibJson.ItemDelete
import Cvos.LibJson.ItemHeap
import Cvos.LibJson.ItemLists
import Cvos.LibJson.ItemNames
import Cvos.LibJson.ItemRuns
import Cvos.LibJson.ItemTexts
import Cvos.LibJson.Minify
import Cvos.LibJson.MinifyTexts
import Cvos.LibJson.NumberText
import Cvos.LibJson.NumberValues
import Cvos.LibJson.Parse
import Cvos.LibJson.ParseOutcomes
import Cvos.LibJson.ParseString
import Cvos.LibJson.ParseTexts
import Cvos.LibJson.Print
import Cvos.LibJson.PrintBuffered
import Cvos.LibJson.PrintBufferedTexts
import Cvos.LibJson.PrintMemory
import Cvos.LibJson.PrintTexts
import Cvos.LibJson.RoundTrip
import Cvos.LibJson.StringText
import Cvos.LogFile.Model
import Cvos.LogFile.Rotation
import Cvos.Msg.Burst
import Cvos.Msg.Checksum
import Cvos.Msg.HexAcceptance
import Cvos.Msg.HexFrame
import Cvos.Msg.TextAcceptance
import Cvos.Msg.TextFrame
import Cvos.MsgQueue.Delivery
import Cvos.MsgQueue.Model
import Cvos.NetSock.Send
import Cvos.RedisClt.Connection
import Cvos.RingBuf.Model
import Cvos.RingBuf.Refinement
import Cvos.RingBuf.Threads
import Cvos.Timer.DateStrings
import Cvos.Timer.DateTime
import Cvos.Timer.FailedCreation
import Cvos.Timer.Kind
import Cvos.Timer.Model
import Cvos.Timer.Ownership
import Cvos.Utils.Crc16
import Cvos.Utils.Duration
import Cvos.Utils.Fifo
import Cvos.Utils.FtpServer
import Cvos.Utils.Interfaces
import Cvos.Utils.JsonText
import Cvos.Utils.TextFields
import Cvos.Utils.Token
import Cvos.Vos.Checksum
import Cvos.Vos.DateTime
import Cvos.Vos.Files
import Cvos.Vos.Md5
import Cvos.Vos.Md5Digest
