import WebServer.HttpConn.Stream
import WebServer.HttpConn.Reuse
import WebServer.HttpConn.Headers
import WebServer.HttpConn.RequestLine
import WebServer.HttpConn.Content
import WebServer.HttpConn.Termination
import WebServer.HttpConn.Process
import WebServer.HttpConn.Message
import WebServer.HttpConn.Body
import WebServer.HttpConn.Receive
import WebServer.HttpConn.Scanner
import WebServer.HttpConn.Buffer
import WebServer.ThreadPool.Semaphore
import WebServer.ThreadPool.Workqueue
import WebServer.ThreadPool.Life
import WebServer.ThreadPool.Locked
import WebServer.ThreadPool.Drain
import WebServer.Server.Ownership
import WebServer.Server.Progress
import WebServer.Server.Accounting
import WebServer.Server.Descriptors
import WebServer.Server.Capacity
import WebServer.Server.System
import WebServer.Server.Clients
import WebServer.Server.Readiness
import WebServer.Lessons.Sort
import WebServer.Lessons.FileNum
import WebServer.Lessons.Wait
import WebServer.Lessons.CopyFile
